import ImagineOS.Libc.Conversions
import Mathlib.Data.Nat.Digits.Lemmas

/-!
# Libc: when integers are printed as ISO C says

`format_write` does not narrow an argument to the type of `hh` or `h`. It prints a sign for an
unsigned conversion too, and a prefix for a zero. It drops digits of a width and a precision that
could overflow, and it takes the length of a text to be an `int`. All other conversions are printed
as ISO C says.
-/

namespace ImagineOS.Libc

open List Nat

/-! ### Digits of a width or a precision -/

section Digits

variable {digits : List UInt8}

/-- The largest number that is read. -/
def maxRead : ℕ := 2147483639

theorem digitValue_decimal {c : UInt8} (h : 48 ≤ c ∧ c ≤ 57) :
    digitValue c = c.toNat - 48 ∧ digitValue c ≤ 9 := by
  have hle := UInt8.le_iff_toNat_le.mp h.2
  rw [digitValue, if_pos h]
  exact ⟨rfl, by simp at hle; omega⟩

/-- A number is read, or it is too large, and only its first digits are. -/
theorem saturated_cases (hdigits : Decimal digits) :
    (saturated 0 digits = numeral 10 digits ∧ numeral 10 digits ≤ maxRead) ∨
      (maxRead < numeral 10 digits ∧ 214748364 ≤ saturated 0 digits ∧
        saturated 0 digits ≤ maxRead ∧
        ∃ dropped > 0, saturated 0 digits = numeral 10 digits / 10 ^ dropped) := by
  induction digits using List.reverseRecOn with
  | nil => exact .inl ⟨rfl, by decide⟩
  | append_singleton digits c ih =>
    obtain ⟨hfront, hlast⟩ := forall_mem_append.mp hdigits
    obtain ⟨hvalue, hle⟩ := digitValue_decimal (hlast c mem_cons_self)
    have hnumeral : numeral 10 (digits ++ [c]) = numeral 10 digits * 10 + digitValue c := by
      rw [numeral, continued, foldl_append]
      rfl
    have hsaturated : saturated 0 (digits ++ [c]) = if saturated 0 digits < 214748364 then
        saturated 0 digits * 10 + digitValue c else saturated 0 digits := by
      rw [saturated, foldl_append, hvalue]
      rfl
    rw [hnumeral, hsaturated, maxRead]
    rcases ih hfront with ⟨heq, hmax⟩ | ⟨hmax, hmin, hle', dropped, hpos, hdiv⟩
    · rw [maxRead] at hmax
      rw [heq]
      by_cases hlt : numeral 10 digits < 214748364
      · rw [if_pos hlt]
        exact .inl ⟨rfl, by omega⟩
      · rw [if_neg hlt]
        exact .inr ⟨by omega, by omega, hmax, 1, by omega, by omega⟩
    · rw [maxRead] at hmax hle'
      rw [if_neg (by omega)]
      refine .inr ⟨by omega, hmin, hle', dropped + 1, by omega, ?_⟩
      have htenth : (numeral 10 digits * 10 + digitValue c) / 10 = numeral 10 digits := by omega
      rw [pow_succ', ← Nat.div_div_eq_div_mul, htenth]
      exact hdiv

/-- The width that is `2 ^ 64` more than what is read of it. -/
def wrappedWidth : ℕ := 18446744075554226023

/-- Only one number is `2 ^ 64` more than its first digits. -/
theorem wrapped_iff {number first dropped : ℕ} (hfirst : first = number / 10 ^ dropped)
    (hmin : 214748364 ≤ first) (hmax : first ≤ maxRead) :
    number = 2 ^ 64 + first ↔ number = wrappedWidth := by
  rw [maxRead] at hmax
  have hten : 2 ^ 64 ≤ number → number ≤ 2 ^ 64 + 2147483639 → first = 1844674407 :=
    fun hlow hhigh => by
      have hdropped : dropped = 10 := by
        rcases Nat.lt_trichotomy dropped 10 with hlt | heq | hgt
        · have hpow : 10 ^ dropped ≤ 10 ^ 9 := Nat.pow_le_pow_right (by decide) (by omega)
          have hdiv : number / 10 ^ 9 ≤ number / 10 ^ dropped :=
            Nat.div_le_div_left hpow (Nat.pow_pos (by decide))
          omega
        · exact heq
        · have hpow : 10 ^ 11 ≤ 10 ^ dropped := Nat.pow_le_pow_right (by decide) (by omega)
          have hdiv : number / 10 ^ dropped ≤ number / 10 ^ 11 :=
            Nat.div_le_div_left hpow (by decide)
          omega
      rw [hfirst, hdropped]
      omega
  rw [wrappedWidth]
  constructor
  · intro h
    have := hten (by omega) (by omega)
    omega
  · intro h
    have := hten (by omega) (by omega)
    omega

end Digits

/-! ### The field -/

section Padding

variable {width : ℤ} {least : Prop} {number content : ℕ}

inductive WidthReading (least : Prop) : ℤ → ℕ → Prop
  | exact {number : ℕ} : ¬ least → number ≤ intMax → WidthReading least number number
  | least : least → WidthReading least (-2 ^ 31) (2 ^ 31)
  | dropped {width number : ℕ} : ¬ least → 214748364 ≤ width → width ≤ maxRead →
      maxRead < number → 10 * width ≤ number → (number = 2 ^ 64 + width ↔ number = wrappedWidth) →
      WidthReading least width number

/-- The padding of a content whose length an `int` can tell. -/
theorem padding_small (hmax : width < 2 ^ 31) (hcontent : content < 2 ^ 31) :
    (padding width content : ℤ) = max (width - content) 0 := by
  have hmod : Int.bmod content (2 ^ 32) = content := by
    rw [Int.bmod_def]
    split <;> omega
  rw [padding, hmod]
  split <;> omega

/-- The padding of a content whose length an `int` takes to be negative. -/
theorem padding_large (hmin : width = -2 ^ 31 ∨ 0 ≤ width) (hmax : width < 2 ^ 31)
    (hcontent : 2 ^ 31 ≤ content) (hlt : content < 2 ^ 32) :
    (padding width content : ℤ) = if width < 0 then 0 else 2 ^ 64 + width - content := by
  have hmod : Int.bmod content (2 ^ 32) = content - 2 ^ 32 := by
    rw [Int.bmod_def]
    split <;> omega
  rw [padding, hmod]
  by_cases hneg : width < 0
  · rw [if_neg (by omega), if_pos hneg]
    rfl
  · rw [if_pos (by omega), if_neg hneg]
    omega

theorem WidthReading.bounds (h : WidthReading least width number) :
    (width = -2 ^ 31 ∨ 0 ≤ width) ∧ width < 2 ^ 31 := by
  cases h with
  | exact _ hmax =>
    rw [intMax] at hmax
    omega
  | least => omega
  | dropped _ _ hmax =>
    rw [maxRead] at hmax
    omega

theorem WidthReading.padding_eq (h : WidthReading least width number)
    (hcontent : content < 2 ^ 32) : (padding width content : ℤ) =
      if content < 2 ^ 31 then max (width - content) 0
      else if width < 0 then 0 else 2 ^ 64 + width - content := by
  obtain ⟨hmin, hmax⟩ := h.bounds
  by_cases hsmall : content < 2 ^ 31
  · rw [if_pos hsmall, padding_small hmax hsmall]
  · rw [if_neg hsmall, padding_large hmin hmax (by omega) hcontent]

theorem padding_same_iff (h : WidthReading least width number) (hcontent : content < 2 ^ 32) :
    padding width content = number - content ↔
      (content ≤ intMax → width = number ∨ number ≤ content) ∧
        (intMax < content → number = wrappedWidth ∨ least) := by
  have hpadding := h.padding_eq hcontent
  generalize padding width content = p at hpadding
  rw [intMax, wrappedWidth]
  cases h with
  | exact hleast hmax =>
    rw [intMax] at hmax
    simp only [hleast, or_false, true_or, implies_true, true_and]
    split_ifs at hpadding <;> omega
  | least hleast =>
    simp only [hleast, or_true, implies_true, and_true]
    split_ifs at hpadding <;> omega
  | dropped hleast hmin hmax hlt hten hwrapped =>
    rw [maxRead] at hmax hlt
    rw [wrappedWidth] at hwrapped
    simp only [hleast, or_false]
    split_ifs at hpadding <;> omega

theorem padding_blank_iff (h : WidthReading least width number) (hcontent : content + 1 < 2 ^ 32)
    (hleast : least → content = 0) :
    1 + padding width (content + 1) = number - content ↔
      content < number ∧ (content < intMax → width = number ∨ number = content + 1) ∧
        (intMax ≤ content → number = wrappedWidth) := by
  have hpadding := h.padding_eq hcontent
  generalize padding width (content + 1) = p at hpadding
  rw [intMax, wrappedWidth]
  cases h with
  | exact hleast hmax =>
    rw [intMax] at hmax
    split_ifs at hpadding <;> omega
  | least hleast' =>
    have := hleast hleast'
    split_ifs at hpadding <;> omega
  | dropped hleast hmin hmax hlt hten hwrapped =>
    rw [maxRead] at hmax hlt
    rw [wrappedWidth] at hwrapped
    split_ifs at hpadding <;> omega

theorem padding_zero_iff (h : WidthReading least width number) (hleast : ¬ least) :
    padding width 2 + 2 = number - 1 + 1 ↔ 2 ≤ number ∧ (width = number ∨ number ≤ 1) := by
  have hpadding := @WidthReading.padding_eq _ _ _ 2 h (by decide)
  generalize padding width 2 = p at hpadding
  rw [if_pos (by decide)] at hpadding
  cases h with
  | exact => omega
  | least h => exact absurd h hleast
  | dropped _ hmin hmax hlt =>
    rw [maxRead] at hmax hlt
    omega

end Padding

/-! ### The widths and precisions that are read -/

/-- Widths that are read. -/
def FieldWidth.IsRead : FieldWidth → Prop
  | none => True
  | number digits _ => numeral 10 digits ≤ maxRead
  | star argument => argument.toInt ≠ -2 ^ 31

/-- The width `INT_MIN`. -/
def FieldWidth.IsLeast : FieldWidth → Prop
  | none | number _ _ => False
  | star argument => argument.toInt = -2 ^ 31

/-- Precisions that are read. -/
def FieldPrecision.IsRead : FieldPrecision → Prop
  | none | star _ => True
  | number digits _ => numeral 10 digits ≤ maxRead

namespace Conversion

variable (c : Conversion)

theorem star_cases (argument : BitVec 32) :
    (argument.toInt = -2 ^ 31 ∧
      (if argument.toInt < 0 then (-argument).toInt else argument.toInt) = -2 ^ 31) ∨
    (argument.toInt ≠ -2 ^ 31 ∧ argument.toInt.natAbs ≤ intMax ∧
      (if argument.toInt < 0 then (-argument).toInt else argument.toInt) =
        (argument.toInt.natAbs : ℤ)) := by
  have hlow := BitVec.le_toInt argument
  have hhigh := BitVec.toInt_lt (x := argument)
  by_cases hleast : argument.toInt = -2 ^ 31
  · have hopposite : (-argument).toInt = -2 ^ 31 := by
      rw [BitVec.toInt_neg, hleast]
      decide
    exact .inl ⟨hleast, by rw [if_pos (by omega), hopposite]⟩
  · refine .inr ⟨hleast, by rw [intMax]; omega, ?_⟩
    split
    · rw [BitVec.toInt_neg, Int.bmod_def]
      omega
    · omega

theorem widthReading : WidthReading c.width.IsLeast c.printedWidth c.fieldWidth := by
  rw [printedWidth, fieldWidth]
  cases c.width with
  | none => exact @WidthReading.exact _ 0 (fun h => h) (Nat.zero_le _)
  | number digits valid =>
    dsimp only
    rcases saturated_cases valid.2.1 with ⟨heq, hle⟩ | ⟨hlt, hmin, hmax, dropped, hpos, hdiv⟩
    · rw [heq]
      exact .exact (fun h => h) (hle.trans (by decide))
    · refine .dropped (fun h => h) hmin hmax hlt ?_ (wrapped_iff hdiv hmin hmax)
      have hpow : 10 ^ 1 ≤ 10 ^ dropped := Nat.pow_le_pow_right (by decide) hpos
      have := Nat.div_le_div_left hpow (by decide) (a := numeral 10 digits)
      omega
  | star argument =>
    dsimp only
    rcases star_cases argument with ⟨hleast, hwidth⟩ | ⟨hleast, hmax, hwidth⟩
    · rw [hwidth, hleast]
      exact .least hleast
    · rw [hwidth]
      exact .exact hleast hmax

theorem isRead_iff : c.width.IsRead ↔ c.printedWidth = c.fieldWidth := by
  rw [printedWidth, fieldWidth]
  cases c.width with
  | none => exact iff_of_true trivial rfl
  | number digits valid =>
    dsimp only
    rcases saturated_cases valid.2.1 with ⟨heq, hle⟩ | ⟨hlt, -, hmax, -⟩
    · exact iff_of_true hle (by rw [heq])
    · exact iff_of_false (not_le.mpr hlt) (by omega)
  | star argument =>
    dsimp only
    rcases star_cases argument with ⟨hleast, hwidth⟩ | ⟨hleast, -, hwidth⟩
    · exact iff_of_false (not_not_intro hleast) (by rw [hwidth]; omega)
    · exact iff_of_true hleast hwidth

/-- The least width stands for the flag `-` too. -/
theorem left_of_isLeast (h : c.width.IsLeast) : c.left = true := by
  rw [left]
  cases hwidth : c.width with
  | none => simp [hwidth, FieldWidth.IsLeast] at h
  | number digits valid => simp [hwidth, FieldWidth.IsLeast] at h
  | star argument =>
    have hleast : argument.toInt = -2 ^ 31 := by simpa [hwidth, FieldWidth.IsLeast] using h
    have hneg : decide (argument.toInt < 0) = true := decide_eq_true (by omega)
    show (c.has .left || decide (argument.toInt < 0)) = true
    rw [hneg, Bool.or_true]

theorem precision_cases :
    (c.precision.IsRead ∧ c.printedPrecision = c.fieldPrecision ∧
      c.fieldPrecision.getD 1 ≤ intMax) ∨
    (¬ c.precision.IsRead ∧ ∃ printed number, c.printedPrecision = some printed ∧
      c.fieldPrecision = some number ∧ 214748364 ≤ printed ∧ printed ≤ maxRead ∧
      10 * printed ≤ number) := by
  rw [printedPrecision, fieldPrecision]
  cases c.precision with
  | none => exact .inl ⟨trivial, rfl, by decide⟩
  | number digits valid =>
    dsimp only
    rcases saturated_cases valid with ⟨heq, hle⟩ | ⟨hlt, hmin, hmax, dropped, hpos, hdiv⟩
    · exact .inl ⟨hle, by rw [heq], hle.trans (by decide)⟩
    · refine .inr ⟨Nat.not_le.mpr hlt, _, _, rfl, rfl, hmin, hmax, ?_⟩
      have hpow : 10 ^ 1 ≤ 10 ^ dropped := Nat.pow_le_pow_right (by decide) hpos
      have := Nat.div_le_div_left hpow (by decide) (a := numeral 10 digits)
      omega
  | star argument =>
    have hhigh := BitVec.toInt_lt (x := argument)
    refine .inl ⟨trivial, rfl, ?_⟩
    dsimp only
    split
    · decide
    · rw [Option.getD_some, intMax]
      omega

theorem printedPrecision_zero_iff :
    c.printedPrecision = some 0 ↔ c.fieldPrecision = some 0 := by
  rcases c.precision_cases with ⟨-, heq, -⟩ | ⟨-, printed, number, hprinted, hnumber, hmin, -, hle⟩
  · rw [heq]
  · rw [hprinted, hnumber, Option.some_inj, Option.some_inj]
    omega

/-! ### Agreement -/

/-- A field is filled as ISO C says: its width is read, or there is nothing to fill. If the text is
longer than `INT_MAX` without the field, only two widths will do. -/
def FieldAgrees : Prop :=
  (c.number.contentLength ≤ intMax →
      c.width.IsRead ∨ c.fieldWidth ≤ c.number.contentLength) ∧
    (intMax < c.number.contentLength → c.fieldWidth = wrappedWidth ∨ c.width.IsLeast)

/-- A blank for the sign of an unsigned conversion takes the place of one of the field. -/
def BlankAgrees : Prop :=
  (c.left = false → c.zeroPadded = false) ∧ (c.left = true → c.number.contentLength = 0) ∧
    c.number.contentLength < c.fieldWidth ∧
    (c.number.contentLength < intMax →
      c.width.IsRead ∨ c.fieldWidth = c.number.contentLength + 1) ∧
    (intMax ≤ c.number.contentLength → c.fieldWidth = wrappedWidth)

/-- **The conversions that are printed as ISO C says.** -/
structure Agrees : Prop where
  narrow : c.value = c.passed
  plus : c.specifier.isSigned = false → c.has .plus = false
  precision : c.precision.IsRead
  hexadecimal : c.has .alternate = true → c.specifier.isHexadecimal = true → c.value = 0 →
    c.fieldPrecision = some 0
  octal : c.has .alternate = true → c.specifier = .o →
    (c.value ≠ 0 ∧ c.fieldPrecision.getD 0 ≤ c.digits.length) ∨
      (c.value = 0 ∧ c.fieldPrecision = none ∧ c.has .zero = true ∧ c.left = false ∧
        c.has .space = false ∧ 2 ≤ c.fieldWidth)
  field :
    if c.specifier.isSigned = false ∧ c.has .space = true then c.BlankAgrees else c.FieldAgrees

/-! ### The parts of the texts -/

theorem digitValue_digit (s : Specifier) {digit : ℕ} (h : digit < s.base) :
    digitValue (s.digit digit) = digit ∧ Shape.IsDigit (s.digit digit) ∧
      (digit ≠ 0 → s.digit digit ≠ 48) := by
  have hall : ∀ s : Specifier, ∀ digit < s.base, digitValue (s.digit digit) = digit ∧
      Shape.IsDigit (s.digit digit) ∧ (digit ≠ 0 → s.digit digit ≠ 48) := by
    intro s
    cases s <;> decide
  exact hall s digit h

theorem digits_inj (s : Specifier) {m n : ℕ} : s.digits m = s.digits n ↔ m = n := by
  refine ⟨fun h => ?_, fun h => by rw [h]⟩
  have hback : ∀ n, ((s.digits n).map digitValue).reverse = Nat.digits s.base n := fun n => by
    rw [Specifier.digits, map_reverse, reverse_reverse, map_map]
    calc (Nat.digits s.base n).map (digitValue ∘ s.digit)
        = (Nat.digits s.base n).map id := map_congr_left fun digit hdigit =>
          (digitValue_digit s (digits_lt_base (base_bounds s) hdigit)).1
      _ = Nat.digits s.base n := map_id _
  have hdigits : Nat.digits s.base m = Nat.digits s.base n := by rw [← hback, ← hback, h]
  exact digits_inj_iff.mp hdigits

theorem valid_digits (s : Specifier) (magnitude : ℕ) :
    (∀ c ∈ s.digits magnitude, Shape.IsDigit c) ∧ ∀ c ∈ (s.digits magnitude).head?, c ≠ 48 := by
  constructor
  · intro c hc
    obtain ⟨digit, hdigit, rfl⟩ := mem_map.mp (mem_reverse.mp hc)
    exact (digitValue_digit s (digits_lt_base (base_bounds s) hdigit)).2.1
  · intro c hc
    rw [Specifier.digits, List.head?_reverse, List.getLast?_map, Option.mem_def,
      Option.map_eq_some_iff] at hc
    obtain ⟨digit, hdigit, rfl⟩ := hc
    obtain ⟨hne, rfl⟩ := mem_getLast?_eq_getLast hdigit
    have hlast := getLast_digit_ne_zero s.base (digits_ne_nil_iff_ne_zero.mp hne)
    have hlt := digits_lt_base (base_bounds s) (getLast_mem hne)
    exact (digitValue_digit s hlt).2.2 hlast

theorem filter_signCharacter (negative plus space : Bool) :
    (signCharacter negative plus space).filter (· ≠ 32) =
      if negative then some 45 else if plus then some 43 else none := by
  cases negative <;> cases plus <;> cases space <;> rfl

theorem valid_of_parts {f : Field} {negative plus space : Bool} {s : Specifier} {magnitude : ℕ}
    (hsign : f.sign = none ∨ f.sign = signCharacter negative plus space)
    (hhex : f.hex = none ∨ f.hex = some s.letter) (hdigits : f.digits = s.digits magnitude) :
    f.Valid where
  sign c hc := by
    rcases hsign with h | h
    · rw [h] at hc
      exact absurd hc nofun
    · rw [h, signCharacter] at hc
      split_ifs at hc <;> cases hc <;> decide
  hex c hc := by
    rcases hhex with h | h
    · rw [h] at hc
      exact absurd hc nofun
    · rw [h] at hc
      obtain rfl := Option.some_inj.mp hc
      cases s <;> decide
  digits := hdigits ▸ (valid_digits s magnitude).1
  head := hdigits ▸ (valid_digits s magnitude).2

theorem valid_printed : c.printed.Valid :=
  valid_of_parts (.inr rfl) (by
    show (if _ then _ else _) = _ ∨ (if _ then _ else _) = _
    split
    · exact .inr rfl
    · exact .inl rfl) rfl

theorem valid_prescribed : c.prescribed.Valid :=
  @valid_of_parts _ _ (c.has .plus) (c.has .space) c.specifier c.value.natAbs
    (by
      show (if _ then _ else _) = _ ∨ (if _ then _ else _) = _
      split
      · exact .inr rfl
      · exact .inl rfl)
    (by
      show (if _ then _ else _) = _ ∨ (if _ then _ else _) = _
      split
      · exact .inr rfl
      · exact .inl rfl) rfl

theorem passed_nonneg (h : c.specifier.isSigned = false) : 0 ≤ c.passed ∧ 0 ≤ c.value := by
  rw [passed, value, if_neg (by simp [h]), if_neg (by simp [h])]
  omega

/-- The sign and the digits are those of the value. -/
theorem sign_digits_iff :
    (c.printed.shape.sign = c.prescribed.shape.sign ∧ c.printed.digits = c.prescribed.digits) ↔
      c.value = c.passed ∧ (c.specifier.isSigned = false → c.has .plus = false) := by
  have hprinted : c.printed.shape.sign =
      if c.passed < 0 then some 45 else if c.has .plus then some 43 else none := by
    have h := filter_signCharacter (c.passed < 0) (c.has .plus) (c.has .space)
    simp only [decide_eq_true_eq] at h
    exact h
  have hdigits : c.printed.digits = c.prescribed.digits ↔ c.passed.natAbs = c.value.natAbs :=
    digits_inj c.specifier
  cases hsigned : c.specifier.isSigned with
  | true =>
    have hprescribed : c.prescribed.shape.sign =
        if c.value < 0 then some 45 else if c.has .plus then some 43 else none := by
      have h := filter_signCharacter (c.value < 0) (c.has .plus) (c.has .space)
      simp only [decide_eq_true_eq] at h
      show (if c.specifier.isSigned = true then _ else none : Option UInt8).filter _ = _
      rw [if_pos hsigned]
      exact h
    rw [hprinted, hprescribed, hdigits]
    simp only [Bool.true_eq_false, false_implies, and_true]
    constructor
    · rintro ⟨hsign, habs⟩
      by_cases hp : c.passed < 0 <;> by_cases hv : c.value < 0
      · omega
      · rw [if_pos hp, if_neg hv] at hsign
        split at hsign <;> exact absurd hsign (by decide)
      · rw [if_neg hp, if_pos hv] at hsign
        split at hsign <;> exact absurd hsign (by decide)
      · omega
    · rintro h
      rw [h]
      exact ⟨rfl, rfl⟩
  | false =>
    obtain ⟨hpassed, hvalue⟩ := c.passed_nonneg hsigned
    have hprescribed : c.prescribed.shape.sign = none := by
      show (if c.specifier.isSigned = true then _ else none : Option UInt8).filter _ = _
      rw [if_neg (by simp [hsigned])]
      rfl
    rw [hprinted, hprescribed, hdigits, if_neg (by omega)]
    cases c.has .plus with
    | true => simp
    | false =>
      simp only [Bool.false_eq_true, if_false, true_and, implies_true, and_true]
      omega

theorem marked_iff_value (hvalue : c.value = c.passed) : c.marked = true ↔
    c.has .alternate = true ∧ (c.value ≠ 0 ∨ c.fieldPrecision ≠ some 0) := by
  rw [marked, Bool.and_eq_true, Bool.or_eq_true, decide_eq_true_eq, decide_eq_true_eq, hvalue, Ne,
    Ne, printedPrecision_zero_iff]

theorem hex_iff (hvalue : c.value = c.passed) : c.printed.hex = c.prescribed.hex ↔
    (c.has .alternate = true → c.specifier.isHexadecimal = true → c.value = 0 →
      c.fieldPrecision = some 0) := by
  show (if c.marked = true ∧ c.specifier.isHexadecimal = true then some c.specifier.letter
    else none) = (if c.has .alternate = true ∧ c.specifier.isHexadecimal = true ∧ c.value ≠ 0 then
      some c.specifier.letter else none) ↔ _
  simp only [c.marked_iff_value hvalue]
  by_cases ha : c.has .alternate = true <;> by_cases hh : c.specifier.isHexadecimal = true <;>
    by_cases hv : c.value = 0 <;> by_cases hp : c.fieldPrecision = some 0 <;> simp [ha, hh, hv, hp]

theorem zeros_eq (hvalue : c.value = c.passed) :
    c.printedNumber.zeros = c.printedPrecision.getD 1 - c.digits.length +
        (if (c.has .alternate = true ∧ (c.value ≠ 0 ∨ c.fieldPrecision ≠ some 0)) ∧
          c.specifier = .o then 1 else 0) ∧
      c.number.zeros = max (c.fieldPrecision.getD 1 - c.digits.length)
        (if c.has .alternate = true ∧ c.specifier = .o then 1 else 0) := by
  constructor
  · show c.printedPrecision.getD 1 - (c.specifier.digits c.passed.natAbs).length +
      (if c.marked = true ∧ c.specifier = .o then 1 else 0) = _
    simp only [c.marked_iff_value hvalue, digits, hvalue]
  · show c.zeros = _
    rw [zeros]
    split
    · rfl
    · rw [max_zero]

theorem length_digits_eq_zero : c.digits.length = 0 ↔ c.value = 0 := by
  rw [digits, length_eq_zero_iff, digits_eq_nil, Int.natAbs_eq_zero]

theorem length_digits_le (hvalue : c.value = c.passed) : c.digits.length ≤ 64 := by
  have hpow : 2 ^ 64 ≤ c.specifier.base ^ 64 :=
    Nat.pow_le_pow_left (base_bounds c.specifier) 64
  rw [digits, hvalue, Specifier.digits, length_reverse, length_map,
    Nat.digits_length_le_iff (base_bounds c.specifier)]
  exact c.passed_lt.trans_le hpow

/-- The zeros are those of the number, in a field that is not filled with zeros. -/
theorem zeros_iff (hvalue : c.value = c.passed) : c.printedNumber.zeros = c.number.zeros ↔
    c.precision.IsRead ∧ (c.has .alternate = true → c.specifier = .o →
      c.value ≠ 0 ∧ c.fieldPrecision.getD 0 ≤ c.digits.length) := by
  obtain ⟨hprinted, hnumber⟩ := c.zeros_eq hvalue
  have hlength := c.length_digits_eq_zero
  have hmax := c.length_digits_le hvalue
  rw [hprinted, hnumber]
  rcases c.precision_cases with ⟨hread, heq, -⟩ | ⟨hread, printed, number, hp, hf, hmin, -, hten⟩
  · rw [heq]
    simp only [hread, true_and]
    by_cases ho : c.has .alternate = true ∧ c.specifier = .o
    · simp only [ho.1, ho.2, true_and, and_true, true_implies, if_true]
      cases c.fieldPrecision with
      | none =>
        simp only [Option.getD_none, reduceCtorEq, ne_eq, not_false_eq_true, or_true, if_true]
        omega
      | some precision =>
        have hsome : some precision ≠ some 0 ↔ precision ≠ 0 := by simp
        simp only [Option.getD_some, hsome]
        split <;> omega
    · have hclosed : ¬ ((c.has .alternate = true ∧ (c.value ≠ 0 ∨ c.fieldPrecision ≠ some 0)) ∧
          c.specifier = .o) := fun h => ho ⟨h.1.1, h.2⟩
      rw [if_neg hclosed, if_neg ho]
      exact iff_of_true (max_zero _).symm fun ha hs => absurd ⟨ha, hs⟩ ho
  · refine iff_of_false ?_ fun h => hread h.1
    rw [hp, hf, Option.getD_some, Option.getD_some]
    split <;> split <;> omega

theorem contentLength_eq (hvalue : c.value = c.passed)
    (hsign : c.printed.shape.sign = c.prescribed.shape.sign)
    (hhex : c.printed.hex = c.prescribed.hex) :
    c.printedNumber.contentLength + c.number.zeros + c.number.blankSign =
      c.number.contentLength + c.printedNumber.zeros + c.printedNumber.blankSign := by
  have hsign' : c.printedNumber.sign.filter (· ≠ 32) = c.number.sign.filter (· ≠ 32) := hsign
  have hhex' : c.printedNumber.hexLength = c.number.hexLength :=
    congrArg (fun x : Option UInt8 => if x.isSome then 2 else 0) hhex
  have hdigits : c.printedNumber.digits = c.number.digits := by
    show c.specifier.digits c.passed.natAbs = c.specifier.digits c.value.natAbs
    rw [hvalue]
  rw [Field.contentLength, Field.contentLength, Field.length_sign, c.number.length_sign, hsign',
    hhex', hdigits]
  omega

theorem printedPrecision_le : c.printedPrecision.getD 1 ≤ intMax := by
  rcases c.precision_cases with ⟨-, heq, hle⟩ | ⟨-, printed, _, hprinted, _, -, hmax, -⟩
  · rwa [heq]
  · rw [hprinted, Option.getD_some]
    exact hmax.trans (by decide)

theorem contentLength_lt (hvalue : c.value = c.passed) :
    c.printedNumber.contentLength < 2 ^ 32 := by
  have hzeros := (c.zeros_eq hvalue).1
  have hprecision := c.printedPrecision_le
  have hdigits := c.length_digits_le hvalue
  have hsign : c.printedNumber.sign.toList.length ≤ 1 := by
    cases c.printedNumber.sign <;> simp
  have hhex : c.printedNumber.hexLength ≤ 2 := by
    rw [Field.hexLength]
    split <;> omega
  have hprinted : c.printedNumber.digits.length = c.digits.length := by
    rw [digits, hvalue]
    rfl
  have hone : (if (c.has .alternate = true ∧ (c.value ≠ 0 ∨ c.fieldPrecision ≠ some 0)) ∧
      c.specifier = .o then 1 else 0) ≤ 1 := by
    split <;> omega
  rw [intMax] at hprecision
  rw [Field.contentLength, hzeros, hprinted]
  omega

theorem blankSign_eq (hvalue : c.value = c.passed)
    (hplus : c.specifier.isSigned = false → c.has .plus = false) :
    if c.specifier.isSigned = false ∧ c.has .space = true then
      c.printedNumber.blankSign = 1 ∧ c.number.blankSign = 0
    else c.printedNumber.blankSign = c.number.blankSign := by
  have hprinted : c.printedNumber.blankSign =
      if signCharacter (c.value < 0) (c.has .plus) (c.has .space) = some 32 then 1 else 0 := by
    rw [hvalue]
    rfl
  have hnumber : c.number.blankSign = if (if c.specifier.isSigned = true then
      signCharacter (c.value < 0) (c.has .plus) (c.has .space) else none) = some 32 then 1
      else 0 := rfl
  rw [hprinted, hnumber]
  cases hsigned : c.specifier.isSigned with
  | true => simp
  | false =>
    have hnonneg := (c.passed_nonneg hsigned).2
    have hneg : decide (c.value < 0) = false := decide_eq_false (by omega)
    rw [hplus hsigned, hneg]
    cases c.has .space <;> decide

/-! ### The field -/

section Fill

variable (hvalue : c.value = c.passed)
  (hplus : c.specifier.isSigned = false → c.has .plus = false)
  (hsign : c.printed.shape.sign = c.prescribed.shape.sign)
  (hhex : c.printed.hex = c.prescribed.hex)
include hvalue hplus hsign hhex

/-- A field that is filled on the left. -/
theorem right_iff (hleft : c.left = false) (hpadded : c.zeroPadded = false) :
    c.printedNumber.zeros = c.number.zeros ∧
        c.printedNumber.blankSign + c.printed.padding =
          c.number.blankSign + c.prescribed.padding ↔
      c.printedNumber.zeros = c.number.zeros ∧
        if c.specifier.isSigned = false ∧ c.has .space = true then c.BlankAgrees
        else c.FieldAgrees := by
  have hlength := c.contentLength_eq hvalue hsign hhex
  have hlt := c.contentLength_lt hvalue
  have hblank := c.blankSign_eq hvalue hplus
  have hleast : ¬ c.width.IsLeast := fun h => by
    have := c.left_of_isLeast h
    rw [hleft] at this
    exact absurd this (by decide)
  refine and_congr_right fun hzeros => ?_
  have hpad : c.printed.padding = padding c.printedWidth c.printedNumber.contentLength := rfl
  have hpad' : c.prescribed.padding = c.fieldWidth - c.number.contentLength := rfl
  split
  · rename_i hus
    rw [if_pos hus] at hblank
    have hcontent : c.printedNumber.contentLength = c.number.contentLength + 1 := by omega
    rw [hblank.1, hblank.2, hpad, hpad', hcontent, zero_add,
      padding_blank_iff c.widthReading (by omega) fun h => absurd h hleast, ← isRead_iff,
      BlankAgrees]
    simp [hleft, hpadded]
  · rename_i hus
    rw [if_neg hus] at hblank
    have hcontent : c.printedNumber.contentLength = c.number.contentLength := by omega
    rw [hblank, hpad, hpad', hcontent, add_left_cancel_iff,
      padding_same_iff c.widthReading (by omega), ← isRead_iff, FieldAgrees]

/-- A field that is filled on the right. -/
theorem left_iff (hleft : c.left = true) :
    (c.printedNumber.zeros = c.number.zeros ∧
        c.printedNumber.blankSign + c.printed.padding =
          c.number.blankSign + c.prescribed.padding ∧
        (c.printed.shape.content ≠ [] → c.printedNumber.blankSign = c.number.blankSign)) ↔
      c.printedNumber.zeros = c.number.zeros ∧
        if c.specifier.isSigned = false ∧ c.has .space = true then c.BlankAgrees
        else c.FieldAgrees := by
  have hlength := c.contentLength_eq hvalue hsign hhex
  have hlt := c.contentLength_lt hvalue
  have hblank := c.blankSign_eq hvalue hplus
  refine and_congr_right fun hzeros => ?_
  have hpad : c.printed.padding = padding c.printedWidth c.printedNumber.contentLength := rfl
  have hpad' : c.prescribed.padding = c.fieldWidth - c.number.contentLength := rfl
  have hcontent : c.printed.shape.content.length + c.printedNumber.blankSign =
      c.printedNumber.contentLength := by
    have := c.printed.length_content
    rwa [show c.printed.left = true from hleft, Bool.not_true, Bool.false_and,
      if_neg Bool.false_ne_true, add_zero] at this
  rw [← length_pos_iff]
  split
  · rename_i hus
    rw [if_pos hus] at hblank
    have hsame : c.printedNumber.contentLength = c.number.contentLength + 1 := by omega
    rw [hblank.1, hblank.2, hpad, hpad', hsame, zero_add, BlankAgrees]
    by_cases hempty : c.number.contentLength = 0
    · rw [padding_blank_iff c.widthReading (by omega) fun _ => hempty, ← isRead_iff]
      have hnil : ¬ 0 < c.printed.shape.content.length := by omega
      simp [hleft, hempty, hnil]
    · have hne : 0 < c.printed.shape.content.length := by omega
      refine iff_of_false (fun h => ?_) fun h => hempty (h.2.1 hleft)
      exact absurd (h.2 hne) (by decide)
  · rename_i hus
    rw [if_neg hus] at hblank
    have hsame : c.printedNumber.contentLength = c.number.contentLength := by omega
    rw [hblank, hpad, hpad', hsame, add_left_cancel_iff,
      padding_same_iff c.widthReading (by omega), ← isRead_iff, FieldAgrees]
    exact and_iff_left fun _ => rfl

/-- A field that is filled with zeros. -/
theorem padded_iff (hleft : c.left = false) (hpadded : c.zeroPadded = true) :
    (c.printed.padding + c.printedNumber.zeros = c.prescribed.padding + c.number.zeros ∧
        c.printedNumber.blankSign = c.number.blankSign) ↔
      c.precision.IsRead ∧
      (c.has .alternate = true → c.specifier = .o → c.value ≠ 0 ∨ (c.value = 0 ∧
        c.has .space = false ∧ 2 ≤ c.fieldWidth)) ∧
        if c.specifier.isSigned = false ∧ c.has .space = true then c.BlankAgrees
        else c.FieldAgrees := by
  have hlength := c.contentLength_eq hvalue hsign hhex
  have hlt := c.contentLength_lt hvalue
  have hblank := c.blankSign_eq hvalue hplus
  have hdigits := c.length_digits_eq_zero
  have hleast : ¬ c.width.IsLeast := fun h => by
    have := c.left_of_isLeast h
    rw [hleft] at this
    exact absurd this (by decide)
  have hnone : c.fieldPrecision = none :=
    Option.isNone_iff_eq_none.mp (Bool.and_eq_true_iff.mp hpadded).2
  obtain ⟨hread, hprinted⟩ : c.precision.IsRead ∧ c.printedPrecision = none := by
    rcases c.precision_cases with ⟨hread, heq, -⟩ | ⟨-, _, _, -, hsome, -⟩
    · exact ⟨hread, heq.trans hnone⟩
    · rw [hnone] at hsome
      cases hsome
  obtain ⟨hzeros, hzeros'⟩ := c.zeros_eq hvalue
  rw [hprinted, hnone, Option.getD_none] at hzeros
  rw [hnone, Option.getD_none] at hzeros'
  simp only [reduceCtorEq, ne_eq, not_false_eq_true, or_true, and_true] at hzeros
  have hpad : c.printed.padding = padding c.printedWidth c.printedNumber.contentLength := rfl
  have hpad' : c.prescribed.padding = c.fieldWidth - c.number.contentLength := rfl
  simp only [hread, true_and]
  split
  · rename_i hus
    rw [if_pos hus] at hblank
    refine iff_of_false (fun h => ?_) fun h => ?_
    · exact absurd h.2 (by omega)
    · have := h.2.1 hleft
      rw [hpadded] at this
      exact absurd this (by decide)
  rename_i hus
  rw [if_neg hus] at hblank
  by_cases hspecial : (c.has .alternate = true ∧ c.specifier = .o) ∧ c.value = 0
  · obtain ⟨ho, hzero⟩ := hspecial
    rw [if_pos ho, hdigits.mpr hzero] at hzeros hzeros'
    have hunsigned : c.specifier.isSigned = false := by rw [ho.2]; rfl
    have hspace : c.has .space = false := by
      cases hs : c.has .space with
      | false => rfl
      | true => exact absurd ⟨hunsigned, hs⟩ hus
    have hone : c.number.contentLength = 1 := by
      have hnosign : c.number.sign = none := if_neg (by simp [hunsigned])
      have hnohex : c.number.hex = none := if_neg (by simp [ho.2, Specifier.isHexadecimal])
      have hnodigits : c.number.digits.length = 0 := hdigits.mpr hzero
      rw [Field.contentLength, Field.hexLength, hnosign, hnohex, hnodigits, hzeros']
      rfl
    have htwo : c.printedNumber.contentLength = 2 := by omega
    rw [hpad, hpad', htwo, hone, hzeros, hzeros', FieldAgrees, hone]
    have hiff := padding_zero_iff c.widthReading hleast
    rw [← isRead_iff] at hiff
    simp only [hblank, and_true, ho.1, ho.2, hzero, hspace, true_implies, ne_eq, not_true,
      false_or, true_and]
    refine hiff.trans (and_congr_right fun _ => ⟨fun h => ⟨fun _ => h, fun h' => ?_⟩, fun h =>
      h.1 (by decide)⟩)
    exact absurd h' (by decide)
  · have hsame : c.printedNumber.zeros = c.number.zeros := by
      rw [hzeros, hzeros']
      split
      · rename_i ho
        have hne : c.digits.length ≠ 0 := fun h => hspecial ⟨ho, hdigits.mp h⟩
        omega
      · omega
    have hcontent : c.printedNumber.contentLength = c.number.contentLength := by omega
    have hoctal : c.has .alternate = true → c.specifier = .o → c.value ≠ 0 ∨
        (c.value = 0 ∧ c.has .space = false ∧ 2 ≤ c.fieldWidth) := fun ha ho =>
      .inl fun hzero => hspecial ⟨⟨ha, ho⟩, hzero⟩
    rw [hsame, hblank, hpad, hpad', hcontent, add_right_cancel_iff,
      padding_same_iff c.widthReading (by omega), ← isRead_iff, FieldAgrees]
    simp only [and_true]
    exact (and_iff_right hoctal).symm

end Fill

/-- What the texts have in common, apart from signs, prefixes and digits. -/
theorem filled_iff (hvalue : c.value = c.passed)
    (hplus : c.specifier.isSigned = false → c.has .plus = false)
    (hsign : c.printed.shape.sign = c.prescribed.shape.sign)
    (hhex : c.printed.hex = c.prescribed.hex) :
    (c.printed.shape.zeros = c.prescribed.shape.zeros ∧
        c.printed.shape.lead + c.printed.shape.trail =
          c.prescribed.shape.lead + c.prescribed.shape.trail ∧
        (c.printed.shape.content ≠ [] → c.printed.shape.lead = c.prescribed.shape.lead)) ↔
      c.precision.IsRead ∧
      (c.has .alternate = true → c.specifier = .o →
        (c.value ≠ 0 ∧ c.fieldPrecision.getD 0 ≤ c.digits.length) ∨
          (c.value = 0 ∧ c.fieldPrecision = none ∧ c.has .zero = true ∧ c.left = false ∧
            c.has .space = false ∧ 2 ≤ c.fieldWidth)) ∧
        if c.specifier.isSigned = false ∧ c.has .space = true then c.BlankAgrees
        else c.FieldAgrees := by
  have hshape : ∀ f : Field, f.left = c.left → f.zeroPadded = c.zeroPadded →
      f.shape.zeros = (if !c.left && c.zeroPadded then f.padding else 0) + f.zeros ∧
      f.shape.lead = f.blankSign + (if !c.left && !c.zeroPadded then f.padding else 0) ∧
      f.shape.trail = if c.left then f.padding else 0 := fun f hl hz => by
    rw [← hl, ← hz]
    exact ⟨rfl, rfl, rfl⟩
  obtain ⟨hz, hl, ht⟩ := hshape c.printed rfl rfl
  obtain ⟨hz', hl', ht'⟩ := hshape c.prescribed rfl rfl
  have hprinted : c.printed.zeros = c.printedNumber.zeros ∧
      c.printed.blankSign = c.printedNumber.blankSign := ⟨rfl, rfl⟩
  have hprescribed : c.prescribed.zeros = c.number.zeros ∧
      c.prescribed.blankSign = c.number.blankSign := ⟨rfl, rfl⟩
  have hsame : ∀ p q : Prop, (p ∧ q ∧ (c.printed.shape.content ≠ [] → q) ↔ p ∧ q) :=
    fun p q => ⟨fun h => ⟨h.1, h.2.1⟩, fun h => ⟨h.1, h.2, fun _ => h.2⟩⟩
  rw [hz, hl, ht, hz', hl', ht', hprinted.1, hprinted.2, hprescribed.1, hprescribed.2]
  cases hleft : c.left with
  | true =>
    simp only [Bool.not_true, Bool.false_and, Bool.false_eq_true, if_false, if_true, zero_add,
      add_zero]
    refine (c.left_iff hvalue hplus hsign hhex hleft).trans ?_
    rw [c.zeros_iff hvalue, and_assoc]
    simp only [Bool.true_eq_false, false_and, and_false, or_false]
  | false =>
    cases hpadded : c.zeroPadded with
    | true =>
      have hzero := (Bool.and_eq_true_iff.mp hpadded).1
      have hnone := Option.isNone_iff_eq_none.mp (Bool.and_eq_true_iff.mp hpadded).2
      simp only [Bool.not_false, Bool.not_true, Bool.and_false, Bool.and_self, Bool.false_eq_true,
        if_false, if_true, add_zero]
      rw [hsame]
      refine (c.padded_iff hvalue hplus hsign hhex hleft hpadded).trans ?_
      simp only [hnone, hzero, Option.getD_none, zero_le, and_true, true_and]
    | false =>
      have hno : ¬ (c.fieldPrecision = none ∧ c.has .zero = true) := fun h => by
        rw [zeroPadded, h.1, h.2] at hpadded
        exact absurd hpadded (by decide)
      simp only [Bool.not_false, Bool.and_false, Bool.and_self, Bool.false_eq_true, if_false,
        if_true, zero_add, add_zero]
      rw [hsame]
      refine (c.right_iff hvalue hplus hsign hhex hleft hpadded).trans ?_
      rw [c.zeros_iff hvalue, and_assoc]
      have hsecond : ¬ (c.value = 0 ∧ c.fieldPrecision = none ∧ c.has .zero = true ∧
          c.has .space = false ∧ 2 ≤ c.fieldWidth) := fun h => hno ⟨h.2.1, h.2.2.1⟩
      simp only [hsecond, true_and, or_false]

/-- **When a conversion is printed as ISO C says.** -/
theorem render_prescribed_iff (message : CString) (c : Conversion) :
    render message c.format c.arguments = .ok c.prescribed.text ↔ c.Agrees := by
  rw [render_eq, Except.ok.injEq, Field.text_inj c.valid_printed c.valid_prescribed]
  constructor
  · rintro ⟨⟨hsign, hhex, hzeros, hdigits⟩, hsum, hlead⟩
    obtain ⟨hvalue, hplus⟩ := c.sign_digits_iff.mp ⟨hsign, hdigits⟩
    obtain ⟨hprecision, hoctal, hfield⟩ :=
      (c.filled_iff hvalue hplus hsign hhex).mp ⟨hzeros, hsum, hlead⟩
    exact ⟨hvalue, hplus, hprecision, (c.hex_iff hvalue).mp hhex, hoctal, hfield⟩
  · intro h
    obtain ⟨hsign, hdigits⟩ := c.sign_digits_iff.mpr ⟨h.narrow, h.plus⟩
    have hhex := (c.hex_iff h.narrow).mpr h.hexadecimal
    obtain ⟨hzeros, hsum, hlead⟩ :=
      (c.filled_iff h.narrow h.plus hsign hhex).mpr ⟨h.precision, h.octal, h.field⟩
    exact ⟨⟨hsign, hhex, hzeros, hdigits⟩, hsum, hlead⟩

theorem format_nonzero : 0 ∉ c.format := by
  have hdecimal : ∀ {text : List UInt8}, Decimal text → 0 ∉ text := fun h hmem =>
    absurd (h 0 hmem) (by decide)
  have hflags : 0 ∉ c.flags.map Flag.character := fun hmem => by
    obtain ⟨flag, -, hflag⟩ := mem_map.mp hmem
    revert hflag
    cases flag <;> decide
  have hwidth : 0 ∉ c.width.text := by
    match c.width with
    | .none => exact not_mem_nil
    | .number digits valid => exact hdecimal valid.2.1
    | .star argument => exact show (0 : UInt8) ∉ [42] by decide
  have hprecision : 0 ∉ c.precision.text := by
    match c.precision with
    | .none => exact not_mem_nil
    | .number digits valid =>
      exact not_mem_cons_of_ne_of_not_mem (by decide) (hdecimal valid)
    | .star argument => exact show (0 : UInt8) ∉ [46, 42] by decide
  have hend : 0 ∉ c.modifier.text ++ [c.specifier.character] := by
    cases c.modifier <;> cases c.specifier <;> decide
  rw [format, mem_cons, mem_append, mem_append, mem_append]
  simp only [hflags, hwidth, hprecision, hend, or_false]
  decide

/-- The format, as a string. -/
def formatString : CString := ⟨c.format, c.format_nonzero⟩

/-- **What `format_write` emits for an integer is what ISO C says for the conversions that agree**,
and only for them. -/
theorem formatWrite_prescribed_iff (message : CString) (c : Conversion) : ∃ text,
    (∀ (buffer : List UInt8) (capacity : ℕ), capacity ≤ buffer.length → capacity ≤ sizeMax →
      formatWrite message buffer capacity c.formatString c.arguments =
        .ok ⟨truncated capacity text buffer, min text.length intMax, []⟩) ∧
    render message c.format c.arguments = .ok text ∧ (text = c.prescribed.text ↔ c.Agrees) := by
  have htext := c.render_eq message
  refine ⟨_, fun _ _ hcapacity hsize => @formatWrite_eq _ _ c.formatString _ _ _ htext
    hcapacity hsize, htext, ?_⟩
  rw [← render_prescribed_iff message, htext, Except.ok.injEq]

/-- `%hhd`, for `300` -/
def narrowed : Conversion := ⟨[], .none, .none, .hh, .d, (300 : BitVec 32)⟩

/-- **`%hhd` does not narrow its argument.** -/
theorem render_narrowed : narrowed.format = [37, 104, 104, 100] ∧
    render ⟨[], by decide⟩ narrowed.format narrowed.arguments = .ok [51, 48, 48] ∧
    narrowed.prescribed.text = [52, 52] := by
  refine ⟨by decide, ?_, by decide +kernel⟩
  rw [render_eq]
  decide +kernel

end Conversion

end ImagineOS.Libc
