import ImagineOS.Libc.Stdio
import Mathlib.Data.List.Induction
import Mathlib.Data.Nat.Digits.Defs

/-!
# Libc: the text of a format

A format with its arguments has a text, whatever the capacity of a buffer is. `format_write` stores
as much of it as fits, before a zero byte, and counts all of it, up to `INT_MAX`.
-/

namespace ImagineOS.Libc

open Checked List

/-! ### Emission -/

section Emission

variable {capacity : ℕ} {out : Output} {text text' : List UInt8}

/-- One more character. -/
def Output.push (capacity : ℕ) (out : Output) (value : UInt8) : Output :=
  ⟨if capacity ≠ 0 ∧ out.used < capacity - 1 then out.buffer.set out.used value else out.buffer,
    if out.used < sizeMax then out.used + 1 else out.used, out.stored⟩

/-- More characters. -/
def Output.emitted (capacity : ℕ) (text : List UInt8) (out : Output) : Output :=
  text.foldl (Output.push capacity) out

theorem Output.emitted_append (capacity : ℕ) (text text' : List UInt8) (out : Output) :
    out.emitted capacity (text ++ text') = (out.emitted capacity text).emitted capacity text' :=
  foldl_append

theorem Output.length_push (capacity : ℕ) (out : Output) (value : UInt8) :
    (out.push capacity value).buffer.length = out.buffer.length := by
  rw [Output.push]
  split_ifs <;> simp

theorem Output.length_emitted (capacity : ℕ) (text : List UInt8) (out : Output) :
    (out.emitted capacity text).buffer.length = out.buffer.length := by
  induction text generalizing out with
  | nil => rfl
  | cons c text ih => exact (ih _).trans (out.length_push capacity c)

/-- A computation emits a text, into every buffer that has the capacity. -/
def Emits (capacity : ℕ) (text : List UInt8) (f : Output → Checked Empty Output) : Prop :=
  ∀ out, capacity ≤ out.buffer.length → f out = .ok (out.emitted capacity text)

theorem Emits.pure : Emits capacity [] (fun out => .ok out) := fun _ _ => rfl

theorem Emits.bind {f g : Output → Checked Empty Output} (hf : Emits capacity text f)
    (hg : Emits capacity text' g) : Emits capacity (text ++ text') (fun out => f out >>= g) := by
  intro out hout
  have hlength := out.length_emitted capacity text
  simp only [hf out hout, ok_bind, hg _ (hlength ▸ hout), Output.emitted_append]

theorem emits_emitChar (value : UInt8) : Emits capacity [value] (emitChar capacity value) := by
  intro out hout
  rw [emitChar, Output.emitted, foldl_cons, foldl_nil, Output.push]
  by_cases hroom : capacity ≠ 0 ∧ out.used < capacity - 1
  · rw [if_pos hroom, if_pos hroom, setAt, if_pos (by omega)]
    rfl
  · rw [if_neg hroom, if_neg hroom]
    rfl

theorem emits_emitBytes (text : List UInt8) : Emits capacity text (emitBytes capacity text) := by
  induction text with
  | nil => exact Emits.pure
  | cons c text ih => exact (emits_emitChar c).bind ih

theorem emits_emitRepeat (value : UInt8) (count : ℕ) :
    Emits capacity (List.replicate count value) (emitRepeat capacity value count) := by
  induction count with
  | zero => exact Emits.pure
  | succ count ih => exact (emits_emitChar value).bind ih

theorem emits_emitIf (condition : Bool) (value : UInt8) (count : ℕ) :
    Emits capacity (if condition then List.replicate count value else [])
      (emitIf condition capacity value count) := by
  intro out hout
  rw [emitIf]
  cases condition with
  | false => rfl
  | true => exact emits_emitRepeat value count out hout

theorem emits_emitNonzero (value : UInt8) :
    Emits capacity (if value ≠ 0 then [value] else []) (emitNonzero capacity value) := by
  intro out hout
  rw [emitNonzero]
  split
  · exact emits_emitChar value out hout
  · rfl

end Emission

/-! ### The text of a directive -/

/-- A text in a field of some width. -/
def fieldText (left : Bool) (width : ℤ) (text : List UInt8) : List UInt8 :=
  (if !left then List.replicate (padding width text.length) 32 else []) ++
    (text ++ if left then List.replicate (padding width text.length) 32 else [])

/-- The text of an integer. -/
def Parts.text (parts : Parts) : List UInt8 :=
  (if !parts.left && !parts.zeroPadded then List.replicate parts.padding 32 else []) ++
    ((if parts.sign ≠ 0 then [parts.sign] else []) ++
      (parts.basePrefix ++
        ((if !parts.left && parts.zeroPadded then List.replicate parts.padding 48 else []) ++
          (List.replicate parts.zeroCount 48 ++
            (parts.digits.reverse ++
              if parts.left then List.replicate parts.padding 32 else [])))))

section Texts

variable {capacity : ℕ}

theorem emits_emitField (left : Bool) (width : ℤ) (text : List UInt8) :
    Emits capacity (fieldText left width text) (emitField capacity left width text) :=
  (emits_emitIf _ _ _).bind ((emits_emitBytes _).bind (emits_emitIf _ _ _))

theorem emits_emitParts (parts : Parts) :
    Emits capacity parts.text (emitParts capacity parts) :=
  (emits_emitIf _ _ _).bind ((emits_emitNonzero _).bind ((emits_emitBytes _).bind
    ((emits_emitIf _ _ _).bind ((emits_emitRepeat _ _).bind
      ((emits_emitBytes _).bind (emits_emitIf _ _ _))))))

end Texts

/-- The text of a directive, and the arguments after it. The directive `%n` has none. -/
def directiveText (message : CString) (d : Directive) (arguments : List Argument) :
    Checked Empty (List UInt8 × List Argument) := do
  let ((left, width), arguments) ← takeWidth d.flags.left arguments d.width
  let (precision, arguments) ← takePrecision arguments d.precision
  if d.conversion = 115 then do
    let (text, arguments) ← vaArg Argument.string? arguments
    return (fieldText left width (stringText precision text), arguments)
  else if d.conversion = 99 then do
    let (value, arguments) ← vaArg Argument.int? arguments
    return (fieldText left width [UInt8.ofBitVec (value.setWidth 8)], arguments)
  else if d.conversion = 109 then return (fieldText left width message.bytes, arguments)
  else if d.conversion = 110 then panic
  else if !isInteger d.conversion then
    return (37 :: if d.conversion ≠ 0 then [d.conversion] else [], arguments)
  else do
    let ((negative, value), arguments) ← takeInteger d.conversion d.length arguments
    let parts ← integerParts d left width precision negative value
    return (parts.text, arguments)

/-- **The text of a format.** -/
def render (message : CString) : List UInt8 → List Argument → Checked Empty (List UInt8)
  | [], _ => return []
  | c :: format, arguments =>
    if c ≠ 37 then do
      let text ← render message format arguments
      return c :: text
    else if byteAt format 0 = 37 then do
      let text ← render message (format.drop 1) arguments
      return 37 :: text
    else do
      let (text, arguments) ← directiveText message (readDirective format).1 arguments
      let text' ← render message (readDirective format).2 arguments
      return text ++ text'
  termination_by format => format.length
  decreasing_by
    · simp
    · simp only [List.length_drop, List.length_cons]
      omega
    · have := length_readDirective format
      simp only [List.length_cons]
      omega

section Simulation

variable {capacity : ℕ} {message : CString} {arguments rest : List Argument} {text : List UInt8}

/-- A computation emits the text that another one returns, if that returns, and leaves the same
arguments. -/
def Renders (capacity : ℕ) (x : Checked Empty (List UInt8 × List Argument))
    (f : Output → Checked Empty (Output × List Argument)) : Prop :=
  ∀ text rest, x = .ok (text, rest) → ∀ out, capacity ≤ out.buffer.length →
    f out = .ok (out.emitted capacity text, rest)

theorem Renders.bind {α : Type} {g : α → Checked Empty (List UInt8 × List Argument)}
    {f : α → Output → Checked Empty (Output × List Argument)}
    (h : ∀ a, Renders capacity (g a) (f a)) (x : Checked Empty α) :
    Renders capacity (x >>= g) (fun out => x >>= fun a => f a out) := by
  intro text rest hx out hout
  obtain ⟨a, ha, hg⟩ := bind_eq_ok.mp hx
  simp only [ha, ok_bind]
  exact h a text rest hg out hout

theorem Renders.ite {x y : Checked Empty (List UInt8 × List Argument)}
    {f g : Output → Checked Empty (Output × List Argument)} (c : Prop) [Decidable c]
    (hx : Renders capacity x f) (hy : Renders capacity y g) :
    Renders capacity (if c then x else y) (fun out => if c then f out else g out) := by
  split
  · exact hx
  · exact hy

theorem Renders.of_emits {f : Output → Checked Empty Output} (h : Emits capacity text f)
    (rest : List Argument) :
    Renders capacity (.ok (text, rest)) (fun out => f out >>= fun out => .ok (out, rest)) := by
  rintro _ _ ⟨⟩ out hout
  simp only [h out hout, ok_bind]

theorem Renders.panic (f : Output → Checked Empty (Output × List Argument)) :
    Renders capacity Checked.panic f := nofun

/-- **A directive emits its text.** -/
theorem renders_emitDirective (d : Directive) (arguments : List Argument) :
    Renders capacity (directiveText message d arguments)
      (emitDirective capacity message d arguments) := by
  refine .bind (fun ⟨⟨left, width⟩, arguments⟩ => ?_) _
  refine .bind (fun ⟨precision, arguments⟩ => ?_) _
  refine .ite _ (.bind (fun _ => .of_emits (emits_emitField _ _ _) _) _) ?_
  refine .ite _ (.bind (fun _ => .of_emits (emits_emitField _ _ _) _) _) ?_
  refine .ite _ (.of_emits (emits_emitField _ _ _) _) ?_
  refine .ite _ (.panic _) ?_
  refine .ite _ ?_ (.bind (fun _ => .bind (fun _ => .of_emits (emits_emitParts _) _) _) _)
  have h := @Renders.of_emits capacity _ _
    ((emits_emitChar 37).bind (emits_emitNonzero d.conversion)) arguments
  simp only [bind_assoc] at h
  exact h

/-- **A format emits its text.** -/
theorem formatFrom_eq (format : List UInt8) (arguments : List Argument) (out : Output)
    (h : render message format arguments = .ok text) (hout : capacity ≤ out.buffer.length) :
    formatFrom capacity message format arguments out = .ok (out.emitted capacity text) := by
  induction format, arguments, out using formatFrom.induct generalizing text with
  | case1 arguments out =>
    rw [render] at h
    obtain ⟨⟩ := h
    rw [formatFrom]
    rfl
  | case2 c format arguments out hc ih =>
    rw [render, if_pos hc, bind_eq_ok] at h
    obtain ⟨text', htext, ⟨⟩⟩ := h
    rw [formatFrom, if_pos hc, emits_emitChar c out hout, ok_bind]
    exact ih _ htext (by rwa [Output.length_emitted])
  | case3 c format arguments out hc hpercent ih =>
    rw [render, if_neg hc, if_pos hpercent, bind_eq_ok] at h
    obtain ⟨text', htext, ⟨⟩⟩ := h
    rw [formatFrom, if_neg hc, if_pos hpercent, emits_emitChar 37 out hout, ok_bind]
    exact ih _ htext (by rwa [Output.length_emitted])
  | case4 c format arguments out hc hpercent ih =>
    rw [render, if_neg hc, if_neg hpercent, bind_eq_ok] at h
    obtain ⟨⟨first, rest⟩, hfirst, h⟩ := h
    obtain ⟨text', htext, ⟨⟩⟩ := bind_eq_ok.mp h
    rw [formatFrom, if_neg hc, if_neg hpercent,
      renders_emitDirective _ _ _ _ hfirst out hout, ok_bind, Output.emitted_append]
    exact ih _ _ htext (by rwa [Output.length_emitted])

end Simulation

/-! ### The buffer -/

section Buffers

variable {capacity : ℕ} {message : CString} {format : CString} {arguments : List Argument}
  {text buffer : List UInt8}

/-- What is in a buffer after a text of which only some characters are stored. -/
def overwritten (room : ℕ) (text buffer : List UInt8) : List UInt8 :=
  text.take room ++ buffer.drop (min text.length room)

theorem length_overwritten {room : ℕ} (hroom : room ≤ buffer.length) :
    (overwritten room text buffer).length = buffer.length := by
  rw [overwritten, length_append, length_take, length_drop]
  omega

theorem set_overwritten {room : ℕ} (c : UInt8) (hlt : text.length < room)
    (hroom : room ≤ buffer.length) :
    (overwritten room text buffer).set text.length c = overwritten room (text ++ [c]) buffer := by
  rw [overwritten, overwritten, take_of_length_le hlt.le, min_eq_left hlt.le,
    take_of_length_le (by simp; omega), min_eq_left (by simp; omega),
    set_append_right _ _ le_rfl, Nat.sub_self,
    drop_eq_getElem_cons (by omega), set_cons_zero, length_append,
    length_singleton, append_assoc, singleton_append]

theorem overwritten_full {room : ℕ} (c : UInt8) (hle : room ≤ text.length) :
    overwritten room (text ++ [c]) buffer = overwritten room text buffer := by
  rw [overwritten, overwritten, take_append_of_le_length hle, min_eq_right hle,
    min_eq_right (by simp; omega)]

/-- **What a text leaves in a buffer.** -/
theorem emitted_eq (hcapacity : capacity ≤ buffer.length) (hsize : capacity ≤ sizeMax)
    (text : List UInt8) :
    (⟨buffer, 0, []⟩ : Output).emitted capacity text =
      ⟨overwritten (capacity - 1) text buffer, min text.length sizeMax, []⟩ := by
  induction text using List.reverseRecOn with
  | nil => simp [Output.emitted, overwritten]
  | append_singleton text c ih =>
    rw [Output.emitted_append, ih, Output.emitted, foldl_cons, foldl_nil, Output.push,
      length_append, length_singleton]
    dsimp only
    congr 1
    · split
      · rename_i hroom
        rw [min_eq_left (by omega)] at hroom ⊢
        exact set_overwritten c hroom.2 (by omega)
      · rename_i hroom
        exact (overwritten_full c (by omega)).symm
    · split <;> omega

/-- A buffer of some capacity with what fits of a text, and a zero byte after that. -/
def truncated (capacity : ℕ) (text buffer : List UInt8) : List UInt8 :=
  if capacity = 0 then buffer
  else text.take (capacity - 1) ++ 0 :: buffer.drop (min text.length (capacity - 1) + 1)

theorem set_end_overwritten (hpos : 0 < capacity) (hcapacity : capacity ≤ buffer.length) :
    (overwritten (capacity - 1) text buffer).set (min text.length (capacity - 1)) 0 =
      truncated capacity text buffer := by
  have hlength : (text.take (capacity - 1)).length = min text.length (capacity - 1) := by
    rw [length_take, min_comm]
  rw [overwritten, truncated, if_neg (by omega), set_append_right _ _ hlength.le, hlength,
    Nat.sub_self, drop_eq_getElem_cons (by omega), set_cons_zero]

/-- **`format_write` stores what fits of the text**, and counts it up to `INT_MAX`. -/
theorem formatWrite_eq (h : render message format.bytes arguments = .ok text)
    (hcapacity : capacity ≤ buffer.length) (hsize : capacity ≤ sizeMax) :
    formatWrite message buffer capacity format arguments =
      .ok ⟨truncated capacity text buffer, min text.length intMax, []⟩ := by
  have hcount : (if intMax < min text.length sizeMax then intMax else min text.length sizeMax) =
      min text.length intMax := by
    have : intMax < sizeMax := by decide
    split <;> omega
  rw [formatWrite, formatFrom_eq _ _ _ h (show capacity ≤ buffer.length from hcapacity), ok_bind,
    emitted_eq hcapacity hsize]
  dsimp only
  rw [hcount]
  by_cases hpos : 0 < capacity
  · have hstop : (if min text.length sizeMax < capacity then min text.length sizeMax
        else capacity - 1) = min text.length (capacity - 1) := by
      split <;> omega
    rw [if_pos hpos, hstop, setAt, if_pos (by rw [length_overwritten (by omega)]; omega),
      set_end_overwritten hpos hcapacity]
    rfl
  · obtain rfl : capacity = 0 := by omega
    have hsame : overwritten (0 - 1) text buffer = buffer := by simp [overwritten]
    rw [if_neg hpos, truncated, if_pos rfl, hsame]
    rfl

theorem take_truncated {count : ℕ} (hcount : count ≤ text.length) (hlt : count < capacity) :
    (truncated capacity text buffer).take count = text.take count := by
  rw [truncated, if_neg (by omega), take_append_of_le_length (by simp; omega),
    take_take, min_eq_left (by omega)]

theorem length_truncated (hcapacity : capacity ≤ buffer.length) :
    (truncated capacity text buffer).length = buffer.length := by
  rw [truncated]
  split_ifs
  · rfl
  · rw [length_append, length_take, length_cons, length_drop]
    omega

/-- What `vfprintf` does with a text. -/
def printed (malloc : ℕ → Option (List UInt8)) (flush : List UInt8 → ℤ) (text : List UInt8) :
    Printed :=
  if text.length < outputCapacity ∨ (malloc (min text.length intMax + 1)).isSome then
    ⟨if flush (text.take intMax) = (min text.length intMax : ℕ) then (min text.length intMax : ℕ)
      else -1, some (text.take intMax)⟩
  else ⟨-1, none⟩

theorem flushed_truncated {flush : List UInt8 → ℤ} (hlt : min text.length intMax < capacity)
    (hcapacity : capacity ≤ buffer.length) :
    flushed flush (truncated capacity text buffer) (min text.length intMax) =
      .ok ⟨if flush (text.take intMax) = (min text.length intMax : ℕ)
        then (min text.length intMax : ℕ) else -1, some (text.take intMax)⟩ := by
  have htake : between (truncated capacity text buffer) 0 (min text.length intMax) =
      text.take intMax := by
    rw [between, drop_zero, Nat.sub_zero, take_truncated (min_le_left _ _) hlt]
    rcases Nat.le_total text.length intMax with hle | hle
    · rw [min_eq_left hle, take_length, take_of_length_le hle]
    · rw [min_eq_right hle]
  rw [flushed, slice, if_pos ⟨Nat.zero_le _, by rw [length_truncated hcapacity]; omega⟩, ok_bind,
    htake]
  rfl

/-- **`vfprintf` gives the text to the stream**, up to `INT_MAX` characters. -/
theorem vfprintf_eq {locals : List UInt8} {malloc : ℕ → Option (List UInt8)}
    {flush : List UInt8 → ℤ} (h : render message format.bytes arguments = .ok text)
    (hlocals : locals.length = outputCapacity)
    (hmalloc : ∀ size block, malloc size = some block → size ≤ block.length) :
    vfprintf message locals malloc flush format arguments = .ok (printed malloc flush text) := by
  have hmax : outputCapacity < intMax := by decide
  rw [vfprintf, formatWrite_eq h hlocals.ge (by decide), ok_bind, printed]
  dsimp only
  by_cases hshort : text.length < outputCapacity
  · rw [if_pos (by omega), if_pos (.inl hshort)]
    exact flushed_truncated (by omega) hlocals.ge
  · rw [if_neg (by omega)]
    cases hblock : malloc (min text.length intMax + 1) with
    | none =>
      rw [if_neg (by simp [hshort])]
      rfl
    | some block =>
      have hle := hmalloc _ _ hblock
      have hsize : min text.length intMax + 1 ≤ sizeMax := by
        have : intMax + 1 ≤ sizeMax := by decide
        omega
      rw [if_pos (.inr rfl)]
      dsimp only
      rw [formatWrite_eq h hle hsize, ok_bind, if_pos rfl]
      exact flushed_truncated (by omega) hle

end Buffers

/-! ### Digits -/

section Digits

variable {base room value : ℕ} {characters : List UInt8}

/-- The digits of a number, from the last one, and one digit for zero. -/
def numerals (characters : List UInt8) (base value : ℕ) : List UInt8 :=
  (if value = 0 then [0] else Nat.digits base value).map fun digit => characters.getD digit 0

theorem index_eq_getD {i : ℕ} (hi : i < characters.length) :
    (index characters i : Checked Empty UInt8) = .ok (characters.getD i 0) := by
  rw [index, List.getElem?_eq_getElem hi, getD_eq_getElem _ _ hi]

/-- **The array has room for the digits.** -/
theorem writeDigits_eq (hbase : 2 ≤ base) (hcharacters : base ≤ characters.length)
    (hvalue : value < 2 ^ room) (hroom : 0 < room) (digits : List UInt8) :
    writeDigits characters base room value digits =
      .ok (digits ++ numerals characters base value) := by
  induction room generalizing value digits with
  | zero => omega
  | succ room ih =>
    have hmod : value % base < characters.length :=
      (Nat.mod_lt value (by omega)).trans_le hcharacters
    rw [writeDigits, index_eq_getD hmod, ok_bind]
    split
    · rename_i hdiv
      have hlt : value < base := (Nat.div_eq_zero_iff.mp hdiv).resolve_left (by omega)
      rw [Nat.mod_eq_of_lt hlt, numerals]
      split
      · rename_i hzero
        rw [hzero]
        rfl
      · rename_i hzero
        rw [Nat.digits_of_lt base value hzero hlt]
        rfl
    · rename_i hdiv
      have hhalf : value / base < 2 ^ room := by
        calc value / base ≤ value / 2 := Nat.div_le_div_left hbase (by omega)
          _ < 2 ^ room := by rw [pow_succ] at hvalue; omega
      have hpos : 0 < room := by
        rcases Nat.eq_zero_or_pos room with rfl | h
        · rw [pow_zero, Nat.lt_one_iff] at hhalf
          exact absurd hhalf hdiv
        · exact h
      have hne : value ≠ 0 := by
        rintro rfl
        exact hdiv (Nat.zero_div base)
      have hdigits := Nat.digits_def' (by omega : 1 < base) (Nat.pos_of_ne_zero hne)
      rw [ih hhalf hpos, numerals, numerals, if_neg hdiv, if_neg hne, hdigits, append_assoc]
      rfl

theorem conversionBase_bounds (conversion : UInt8) :
    2 ≤ conversionBase conversion ∧ conversionBase conversion ≤ (alphabet conversion).length := by
  rw [conversionBase, alphabet]
  split_ifs <;> decide

/-- The digits of an integer, with no digit for zero with no precision. -/
def integerNumerals (conversion : UInt8) (precision : ℤ) (value : ℕ) : List UInt8 :=
  if value ≠ 0 ∨ precision ≠ 0 then
    numerals (alphabet conversion) (conversionBase conversion) value
  else []

theorem integerDigits_eq (conversion : UInt8) (precision : ℤ) (hvalue : value < 2 ^ 64) :
    integerDigits conversion precision value =
      .ok (integerNumerals conversion precision value) := by
  obtain ⟨hbase, hcharacters⟩ := conversionBase_bounds conversion
  rw [integerDigits, integerNumerals]
  split
  · exact writeDigits_eq hbase hcharacters hvalue (by decide) []
  · rfl

end Digits

/-! ### Matching arguments -/

/-- The types of arguments. -/
inductive ArgumentType
  | int
  | long
  | string
  | pointer
  deriving DecidableEq

/-- The type of an argument. -/
def Argument.type : Argument → ArgumentType
  | .int _ => .int
  | .long _ => .long
  | .string _ => .string
  | .pointer _ => .pointer

/-- The type of an integer, for a length. -/
def FormatLength.type : FormatLength → ArgumentType
  | .long | .longLong | .size | .ptrdiff | .intmax => .long
  | .default | .char | .short => .int

/-- The argument for a width or a precision. -/
def Amount.types : Amount → List ArgumentType
  | .number _ => []
  | .argument => [.int]

/-- The argument for a conversion. -/
def conversionTypes (conversion : UInt8) (length : FormatLength) : List ArgumentType :=
  if conversion = 115 then [.string]
  else if conversion = 99 then [.int]
  else if conversion = 110 ∨ isPointer conversion then [.pointer]
  else if isInteger conversion then [length.type]
  else []

/-- The arguments for a directive. -/
def Directive.types (d : Directive) : List ArgumentType :=
  d.width.types ++ (d.precision.elim [] Amount.types ++ conversionTypes d.conversion d.length)

/-- The directives of a format. -/
def directives : List UInt8 → List Directive
  | [] => []
  | c :: format =>
    if c ≠ 37 then directives format
    else if byteAt format 0 = 37 then directives (format.drop 1)
    else (readDirective format).1 :: directives (readDirective format).2
  termination_by format => format.length
  decreasing_by
    · simp
    · simp only [List.length_drop, List.length_cons]
      omega
    · have := length_readDirective format
      simp only [List.length_cons]
      omega

/-- Arguments that match a format: they start with those for its directives. -/
def Matching (format : List UInt8) (arguments : List Argument) : Prop :=
  (directives format).flatMap Directive.types <+: arguments.map Argument.type

/-- A format without `%n`. -/
def WithoutCount (format : List UInt8) : Prop := ∀ d ∈ directives format, d.conversion ≠ 110

section Matching

variable {message : CString} {arguments : List Argument} {types : List ArgumentType}

/-- A computation returns for arguments of some types, and leaves those after them. -/
def Takes {α : Type} (types : List ArgumentType) (P : α → Prop)
    (f : List Argument → Checked Empty (α × List Argument)) : Prop :=
  ∀ arguments more, arguments.map Argument.type = types ++ more →
    ∃ a rest, f arguments = .ok (a, rest) ∧ P a ∧ rest.map Argument.type = more

theorem Takes.return {α : Type} {P : α → Prop} {a : α} (h : P a) :
    Takes [] P (fun arguments => .ok (a, arguments)) := fun arguments _ hmore =>
  ⟨a, arguments, rfl, h, hmore⟩

theorem Takes.map {α β : Type} {P : α → Prop} {Q : β → Prop}
    {f : List Argument → Checked Empty (α × List Argument)} (h : α → β) (hf : Takes types P f)
    (hQ : ∀ a, P a → Q (h a)) :
    Takes types Q (fun arguments => f arguments >>= fun (a, rest) => .ok (h a, rest)) := by
  intro arguments more hmore
  obtain ⟨a, rest, ha, hP, hrest⟩ := hf arguments more hmore
  exact ⟨h a, rest, by simp only [ha, ok_bind], hQ a hP, hrest⟩

theorem Takes.vaArg {α : Type} {type : Argument → Option α} {t : ArgumentType}
    (h : ∀ argument, argument.type = t → (type argument).isSome) :
    Takes [t] (fun _ => True) (Libc.vaArg type) := by
  intro arguments more hmore
  match arguments, hmore with
  | argument :: rest, hmore =>
    obtain ⟨hargument, hrest⟩ := List.cons.inj hmore
    obtain ⟨a, ha⟩ := Option.isSome_iff_exists.mp (h argument hargument)
    exact ⟨a, rest, by rw [Libc.vaArg, ha], trivial, hrest⟩

theorem takes_int : Takes [.int] (fun _ => True) (Libc.vaArg Argument.int?) :=
  .vaArg fun argument h => by cases argument <;> simp_all [Argument.type, Argument.int?]

theorem takes_long : Takes [.long] (fun _ => True) (Libc.vaArg Argument.long?) :=
  .vaArg fun argument h => by cases argument <;> simp_all [Argument.type, Argument.long?]

theorem takes_string : Takes [.string] (fun _ => True) (Libc.vaArg Argument.string?) :=
  .vaArg fun argument h => by cases argument <;> simp_all [Argument.type, Argument.string?]

theorem takes_pointer : Takes [.pointer] (fun _ => True) (Libc.vaArg Argument.pointer?) :=
  .vaArg fun argument h => by cases argument <;> simp_all [Argument.type, Argument.pointer?]

theorem takes_takeWidth (left : Bool) (amount : Amount) :
    Takes amount.types (fun _ => True) (fun arguments => takeWidth left arguments amount) := by
  cases amount with
  | number value => exact .return trivial
  | argument =>
    intro arguments more hmore
    obtain ⟨width, rest, hwidth, -, hrest⟩ := takes_int arguments more hmore
    simp only [takeWidth, hwidth, ok_bind]
    split
    · exact ⟨_, rest, rfl, trivial, hrest⟩
    · exact ⟨_, rest, rfl, trivial, hrest⟩

theorem takes_takePrecision (precision : Option Amount) :
    Takes (precision.elim [] Amount.types) (fun _ => True)
      (fun arguments => takePrecision arguments precision) := by
  match precision with
  | none => exact .return trivial
  | some (.number value) => exact .return trivial
  | some .argument =>
    exact takes_int.map (Q := fun _ => True)
      (fun precision => if precision.toInt < 0 then -1 else precision.toInt) fun _ _ => trivial

/-- The values of signed types. -/
def SignedValue (value : ℤ) : Prop := -2 ^ 63 ≤ value ∧ value < 2 ^ 63

theorem takes_takeSigned (length : FormatLength) :
    Takes [length.type] SignedValue (takeSigned length) := by
  have hlong := takes_long.map (Q := SignedValue) BitVec.toInt fun value _ =>
    ⟨BitVec.le_toInt value, BitVec.toInt_lt⟩
  have hint := takes_int.map (Q := SignedValue) BitVec.toInt fun value _ => by
    have := BitVec.le_toInt value
    have := BitVec.toInt_lt (x := value)
    constructor <;> omega
  cases length with
  | default | char | short => exact hint
  | long | longLong | size | ptrdiff | intmax => exact hlong

theorem takes_takeUnsigned (length : FormatLength) :
    Takes [length.type] (fun value => value < 2 ^ 64) (takeUnsigned length) := by
  have hlong := takes_long.map (Q := fun value : ℕ => value < 2 ^ 64) BitVec.toNat
    fun value _ => value.isLt
  have hint := takes_int.map (Q := fun value : ℕ => value < 2 ^ 64) BitVec.toNat fun value _ => by
    have := value.isLt
    omega
  cases length with
  | default | char | short => exact hint
  | long | longLong | size | ptrdiff | intmax => exact hlong

/-- Whether a value is negative, and its magnitude. -/
def signAndMagnitude (value : ℤ) : Bool × ℕ :=
  (value < 0, if value < 0 then (-(value + 1)).toNat + 1 else value.toNat)

theorem takes_takeInteger (conversion : UInt8) (length : FormatLength) :
    Takes (if isPointer conversion then [.pointer] else [length.type])
      (fun value => value.2 < 2 ^ 64) (takeInteger conversion length) := by
  intro arguments more hmore
  rw [takeInteger]
  by_cases hpointer : isPointer conversion
  · rw [if_pos hpointer] at hmore ⊢
    exact takes_pointer.map (Q := fun value : Bool × ℕ => value.2 < 2 ^ 64)
      (fun address => (false, address.toNat)) (fun address _ => address.isLt) arguments more hmore
  rw [if_neg hpointer] at hmore ⊢
  by_cases hsigned : isSigned conversion
  · rw [if_pos hsigned]
    refine (takes_takeSigned length).map (Q := fun value : Bool × ℕ => value.2 < 2 ^ 64)
      signAndMagnitude (fun value hvalue => ?_) arguments more hmore
    rw [SignedValue] at hvalue
    rw [signAndMagnitude]
    dsimp only
    split <;> omega
  · rw [if_neg hsigned]
    exact (takes_takeUnsigned length).map (Q := fun value : Bool × ℕ => value.2 < 2 ^ 64)
      (fun value => (false, value)) (fun _ hvalue => hvalue) arguments more hmore

/-- **A directive takes its arguments**, and has a text. -/
theorem takes_directiveText {d : Directive} (hcount : d.conversion ≠ 110) :
    Takes d.types (fun _ => True) (directiveText message d) := by
  intro arguments more hmore
  rw [Directive.types, append_assoc, append_assoc] at hmore
  obtain ⟨⟨left, width⟩, arguments₁, hwidth, -, h₁⟩ :=
    takes_takeWidth d.flags.left d.width arguments _ hmore
  obtain ⟨precision, arguments₂, hprecision, -, h₂⟩ :=
    takes_takePrecision d.precision arguments₁ _ h₁
  dsimp only at hwidth hprecision
  rw [directiveText, hwidth, ok_bind]
  dsimp only
  rw [hprecision, ok_bind]
  dsimp only
  rw [conversionTypes] at h₂
  by_cases hs : d.conversion = 115
  · rw [if_pos hs] at h₂ ⊢
    obtain ⟨text, rest, htext, -, hrest⟩ := takes_string _ _ h₂
    rw [htext]
    exact ⟨_, rest, rfl, trivial, hrest⟩
  rw [if_neg hs] at h₂ ⊢
  by_cases hc : d.conversion = 99
  · rw [if_pos hc] at h₂ ⊢
    obtain ⟨value, rest, hvalue, -, hrest⟩ := takes_int _ _ h₂
    rw [hvalue]
    exact ⟨_, rest, rfl, trivial, hrest⟩
  rw [if_neg hc] at h₂ ⊢
  by_cases hm : d.conversion = 109
  · rw [if_pos hm]
    refine ⟨_, arguments₂, rfl, trivial, ?_⟩
    simpa [hm, isPointer, isInteger, isSigned] using h₂
  rw [if_neg hm, if_neg hcount]
  by_cases hinteger : isInteger d.conversion = true
  · have htypes : (if d.conversion = 110 ∨ isPointer d.conversion = true then
        [ArgumentType.pointer] else if isInteger d.conversion = true then [d.length.type] else []) =
        if isPointer d.conversion = true then [.pointer] else [d.length.type] := by
      simp only [hcount, false_or, hinteger, if_true]
    rw [htypes] at h₂
    obtain ⟨⟨negative, value⟩, rest, hvalue, hlt, hrest⟩ := takes_takeInteger _ _ _ _ h₂
    rw [if_neg (by simp [hinteger]), hvalue, ok_bind]
    dsimp only
    rw [integerParts, integerDigits_eq _ _ hlt]
    exact ⟨_, rest, rfl, trivial, hrest⟩
  · have hpointer : ¬ isPointer d.conversion = true := fun h => hinteger (by simp [isInteger, h])
    rw [if_pos (by simpa using hinteger)]
    refine ⟨_, arguments₂, rfl, trivial, ?_⟩
    simpa only [hcount, hpointer, hinteger, or_self, Bool.false_eq_true, if_false,
      nil_append] using h₂

/-- **A format has a text for matching arguments.** -/
theorem exists_render (format : List UInt8) (hcount : WithoutCount format)
    (hmatching : Matching format arguments) :
    ∃ text, render message format arguments = .ok text := by
  induction format, arguments using render.induct with
  | case1 arguments => exact ⟨[], by rw [render]; rfl⟩
  | case2 c format arguments hc ih =>
    rw [WithoutCount, directives, if_pos hc] at hcount
    rw [Matching, directives, if_pos hc] at hmatching
    obtain ⟨text, htext⟩ := ih hcount hmatching
    exact ⟨c :: text, by rw [render, if_pos hc, htext]; rfl⟩
  | case3 c format arguments hc hpercent ih =>
    rw [WithoutCount, directives, if_neg hc, if_pos hpercent] at hcount
    rw [Matching, directives, if_neg hc, if_pos hpercent] at hmatching
    obtain ⟨text, htext⟩ := ih hcount hmatching
    exact ⟨37 :: text, by rw [render, if_neg hc, if_pos hpercent, htext]; rfl⟩
  | case4 c format arguments hc hpercent ih =>
    rw [WithoutCount, directives, if_neg hc, if_neg hpercent] at hcount
    rw [Matching, directives, if_neg hc, if_neg hpercent, flatMap_cons] at hmatching
    obtain ⟨hfirst, hothers⟩ := forall_mem_cons.mp hcount
    obtain ⟨more, hmore⟩ := hmatching
    rw [append_assoc] at hmore
    obtain ⟨text, rest, htext, -, hrest⟩ :=
      @takes_directiveText message _ hfirst arguments _ hmore.symm
    obtain ⟨text', htext'⟩ := ih rest hothers ⟨more, hrest.symm⟩
    exact ⟨text ++ text', by
      rw [render, if_neg hc, if_neg hpercent, htext, ok_bind]
      dsimp only
      rw [htext', ok_bind]
      rfl⟩

end Matching

/-- **The text of a format does not depend on the buffer.** For matching arguments `format_write`
stores what fits of it, and counts it up to `INT_MAX`; `vfprintf` gives it to the stream, up to
`INT_MAX` characters. -/
theorem formatWrite_matching (message format : CString) (arguments : List Argument)
    (hcount : WithoutCount format.bytes) (hmatching : Matching format.bytes arguments) :
    ∃ text, render message format.bytes arguments = .ok text ∧
      (∀ (buffer : List UInt8) (capacity : ℕ), capacity ≤ buffer.length → capacity ≤ sizeMax →
        formatWrite message buffer capacity format arguments =
          .ok ⟨truncated capacity text buffer, min text.length intMax, []⟩) ∧
      ∀ (locals : List UInt8) (malloc : ℕ → Option (List UInt8)) (flush : List UInt8 → ℤ),
        locals.length = outputCapacity →
        (∀ size block, malloc size = some block → size ≤ block.length) →
        vfprintf message locals malloc flush format arguments =
          .ok (printed malloc flush text) := by
  obtain ⟨text, htext⟩ := @exists_render message _ format.bytes hcount hmatching
  exact ⟨text, htext, fun _ _ hcapacity hsize => formatWrite_eq htext hcapacity hsize,
    fun _ _ _ hlocals hmalloc => vfprintf_eq htext hlocals hmalloc⟩

/-- `%*cA` -/
def fieldFormat : CString := ⟨[37, 42, 99, 65], by decide⟩

/-- The directive of `fieldFormat`. -/
theorem readDirective_fieldFormat :
    readDirective [42, 99, 65] = (⟨Flags.none, .argument, none, .default, 99⟩, [65]) := by
  decide

/-- The text of `%*cA` for `3` and `x` goes into every buffer. -/
theorem formatWrite_matching_field :
    ∃ text, render ⟨[], by decide⟩ fieldFormat.bytes [.int 3, .int 120] = .ok text ∧
      (∀ (buffer : List UInt8) (capacity : ℕ), capacity ≤ buffer.length → capacity ≤ sizeMax →
        formatWrite ⟨[], by decide⟩ buffer capacity fieldFormat [.int 3, .int 120] =
          .ok ⟨truncated capacity text buffer, min text.length intMax, []⟩) ∧
      ∀ (locals : List UInt8) (malloc : ℕ → Option (List UInt8)) (flush : List UInt8 → ℤ),
        locals.length = outputCapacity →
        (∀ size block, malloc size = some block → size ≤ block.length) →
        vfprintf ⟨[], by decide⟩ locals malloc flush fieldFormat [.int 3, .int 120] =
          .ok (printed malloc flush text) := by
  have hdirectives : directives fieldFormat.bytes =
      [⟨Flags.none, .argument, none, .default, 99⟩] := by
    rw [fieldFormat, directives, if_neg (by decide), if_neg (by decide), readDirective_fieldFormat,
      directives, if_pos (by decide), directives]
  refine formatWrite_matching _ _ _ ?_ ?_
  · rw [WithoutCount, hdirectives]
    decide
  · rw [Matching, hdirectives]
    decide

theorem length_fieldText (left : Bool) (width : ℤ) (text : List UInt8) :
    (fieldText left width text).length = padding width text.length + text.length := by
  cases left with
  | false => simp [fieldText]
  | true => simp [fieldText, Nat.add_comm]

/-- **A text may be longer than what is counted.** -/
theorem formatWrite_tooLong : ∃ text,
    render ⟨[], by decide⟩ fieldFormat.bytes [.int 0x7fffffff, .int 120] = .ok text ∧
      formatWrite ⟨[], by decide⟩ [] 0 fieldFormat [.int 0x7fffffff, .int 120] =
        .ok ⟨[], intMax, []⟩ ∧ text.length ≠ intMax := by
  have htext : render ⟨[], by decide⟩ fieldFormat.bytes [.int 0x7fffffff, .int 120] =
      .ok (fieldText false 0x7fffffff [120] ++ [65]) := by
    have hdirective : directiveText ⟨[], by decide⟩ ⟨Flags.none, .argument, none, .default, 99⟩
        [.int 0x7fffffff, .int 120] = .ok (fieldText false 0x7fffffff [120], []) := rfl
    rw [fieldFormat, render, if_neg (by decide), if_neg (by decide), readDirective_fieldFormat,
      hdirective, ok_bind]
    dsimp only
    rw [render, if_pos (by decide), render]
    rfl
  have hlength : (fieldText false 0x7fffffff [120] ++ [65]).length = intMax + 1 := by
    rw [length_append, length_fieldText]
    decide
  refine ⟨_, htext, ?_, by omega⟩
  rw [formatWrite_eq htext (Nat.zero_le _) (Nat.zero_le _), truncated, if_pos rfl, hlength]
  rfl

end ImagineOS.Libc
