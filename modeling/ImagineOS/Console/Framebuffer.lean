import ImagineOS.Lossy
import Mathlib.Data.BitVec

/-!
# Console: drawing characters

The console of the kernel draws characters into the memory of a framebuffer, with the glyphs of a
font that was loaded. It keeps nothing but a cursor: what is on the screen is in that memory.
-/

namespace ImagineOS.Framebuffer

open Utf8 List

/-- A colour, or a pixel. -/
abbrev Color : Type := BitVec 32

/-- `Console`, but for the state of escape sequences. -/
structure Screen where
  /-- The address is not null. -/
  present : Bool
  memory : ℕ → UInt8
  width : ℕ
  height : ℕ
  pitch : ℕ
  redShift : ℕ
  greenShift : ℕ
  blueShift : ℕ
  cursorX : ℕ
  cursorY : ℕ
  cursorVisible : Bool
  font : Option (List UInt8)
  fontWidth : ℕ
  fontHeight : ℕ
  glyphCount : ℕ
  glyphBytes : ℕ
  glyphOffset : ℕ
  unicodeOffset : ℕ
  hasUnicodeTable : Bool
  foreground : Color
  active : Bool

/-! ### Pixels -/

/-- `write_volatile` of a `u32` -/
def store (memory : ℕ → UInt8) (offset : ℕ) (value : Color) : ℕ → UInt8 := fun i =>
  if offset ≤ i ∧ i < offset + 4 then UInt8.ofNat (value.toNat / 256 ^ (i - offset)) else memory i

/-- `read_volatile` of a `u32` -/
def load (memory : ℕ → UInt8) (offset : ℕ) : Color :=
  BitVec.ofNat 32 ((memory offset).toNat + 256 * (memory (offset + 1)).toNat +
    65536 * (memory (offset + 2)).toNat + 16777216 * (memory (offset + 3)).toNat)

def pixel (x y : ℕ) (color : Color) (s : Screen) : Screen :=
  if s.active = false ∨ s.width ≤ x ∨ s.height ≤ y then s
  else
    let red := ((color >>> 16) &&& 0xff) <<< s.redShift
    let green := ((color >>> 8) &&& 0xff) <<< s.greenShift
    let blue := (color &&& 0xff) <<< s.blueShift
    { s with memory := store s.memory (y * s.pitch + x * 4) (red ||| green ||| blue) }

/-- Steps for the numbers from `start` on, one after another. -/
def forRange (start count : ℕ) (body : ℕ → Screen → Screen) (s : Screen) : Screen :=
  (List.range' start count).foldl (fun s i => body i s) s

def drawCursor (visible : Bool) (s : Screen) : Screen :=
  if s.present = false ∨ s.cursorVisible = visible then s
  else
    let row := s.cursorY + (s.fontHeight - 2)
    let color : Color := if visible then 0xdce8e8 else 0x101820
    let drawn := forRange 1 (s.fontWidth - 1 - 1)
      (fun column => pixel (s.cursorX + column) row color) s
    { drawn with cursorVisible := visible }

def eraseCell (x y : ℕ) (s : Screen) : Screen :=
  let width := min s.fontWidth (s.width - x)
  let height := min s.fontHeight (s.height - y)
  forRange y height (fun row => forRange x width fun column => pixel column row 0x101820) s

/-- A pixel is copied from `rows` rows below. -/
def copyUp (x y rows : ℕ) (s : Screen) : Screen :=
  let source := load s.memory ((y + rows) * s.pitch + x * 4)
  { s with memory := store s.memory (y * s.pitch + x * 4) source }

def scrollOneLine (s : Screen) : Screen :=
  let rows := min s.fontHeight s.height
  if rows = 0 then s
  else
    let remainingRows := s.height - rows
    let s := forRange 0 remainingRows (fun y => forRange 0 s.width fun x => copyUp x y rows) s
    let s := forRange remainingRows rows (fun y => forRange 0 s.width fun x =>
      pixel x y 0x101820) s
    { s with cursorY := s.cursorY - rows, cursorVisible := false }

/-! ### UTF-8 -/

structure Utf8Error where
  validUpTo : ℕ
  errorLen : Option ℕ
  deriving DecidableEq

/-- `core::str::from_utf8`: the characters up to the first malformed sequence, and the error. -/
def fromUtf8 : List UInt8 → List Char × Option Utf8Error
  | [] => ([], none)
  | b :: rest =>
    if tails b = some (matched b rest) then
      let (chars, error) := fromUtf8 (rest.drop (matched b rest))
      (firstChar b rest :: chars,
        error.map fun e => { e with validUpTo := matched b rest + 1 + e.validUpTo })
    else
      -- There is no length when the bytes end before the sequence does.
      ([], some {
        validUpTo := 0
        errorLen := if matched b rest = rest.length ∧ (tails b).isSome then none
          else some (matched b rest + 1) })
termination_by bytes => bytes.length
decreasing_by simp only [List.length_cons, List.length_drop]; omega

/-- What `write_utf8` goes on with. -/
def skipError (bytes : List UInt8) (error : Utf8Error) : List UInt8 :=
  let invalid := error.errorLen.getD (bytes.length - error.validUpTo)
  bytes.drop (min (error.validUpTo + invalid) bytes.length)

section FromUtf8

variable {b : UInt8} {rest bytes : List UInt8} {chars : List Char} {error : Utf8Error}

theorem fromUtf8_ok (h : fromUtf8 bytes = (chars, none)) : chars = lossy bytes := by
  fun_induction fromUtf8 bytes generalizing chars with
  | case1 =>
    cases h
    rw [lossy]
  | case2 b rest hvalid chars' error' hrest ih =>
    obtain ⟨hchars, herror⟩ := Prod.mk.inj h
    rw [Option.map_eq_none_iff] at herror
    subst herror
    rw [lossy_cons, ← hchars, ih hrest]
  | case3 => cases h

/-- **An error** is at the first malformed sequence. -/
theorem fromUtf8_error (h : fromUtf8 bytes = (chars, some error)) :
    (skipError bytes error).length < bytes.length ∧
      lossy bytes = chars ++ replacement :: lossy (skipError bytes error) := by
  fun_induction fromUtf8 bytes generalizing chars error with
  | case1 => cases h
  | case2 b rest hvalid chars' error' hrest ih =>
    obtain ⟨rfl, herror⟩ := Prod.mk.inj h
    obtain ⟨e, rfl, rfl⟩ := Option.map_eq_some_iff.mp herror
    obtain ⟨hlt, hlossy⟩ := ih hrest
    have hle := matched_le b rest
    have hskip : skipError (b :: rest) { e with validUpTo := matched b rest + 1 + e.validUpTo } =
        skipError (rest.drop (matched b rest)) e := by
      simp only [skipError, length_cons, length_drop]
      have hinvalid : rest.length + 1 - (matched b rest + 1 + e.validUpTo) =
          rest.length - matched b rest - e.validUpTo := by omega
      have hdrop : min (matched b rest + 1 + e.validUpTo +
            e.errorLen.getD (rest.length - matched b rest - e.validUpTo)) (rest.length + 1) =
          matched b rest + min (e.validUpTo +
            e.errorLen.getD (rest.length - matched b rest - e.validUpTo))
            (rest.length - matched b rest) + 1 := by omega
      rw [hinvalid, drop_drop, hdrop, drop_succ_cons]
    rw [hskip, lossy_cons, hlossy]
    refine ⟨hlt.trans_le ?_, rfl⟩
    rw [length_drop, length_cons]
    omega
  | case3 b rest hinvalid =>
    obtain ⟨rfl, herror⟩ := Prod.mk.inj h
    obtain rfl := Option.some.inj herror
    have hle := matched_le b rest
    have hskip : skipError (b :: rest) {
        validUpTo := 0
        errorLen := if matched b rest = rest.length ∧ (tails b).isSome then none
          else some (matched b rest + 1) } = rest.drop (matched b rest) := by
      simp only [skipError, length_cons, Nat.zero_add, Nat.sub_zero]
      split
      · rename_i hend
        rw [Option.getD_none, Nat.min_self, drop_succ_cons, hend.1]
      · rw [Option.getD_some, Nat.min_eq_left (by omega), drop_succ_cons]
    rw [hskip, lossy_cons, firstChar, if_neg hinvalid, length_drop, length_cons]
    exact ⟨by omega, rfl⟩

end FromUtf8

/-- The calls of `write_char` that `write_utf8` makes. -/
def utf8Chars (bytes : List UInt8) : List Char :=
  if bytes = [] then []
  else match _h : fromUtf8 bytes with
    | (chars, none) => chars
    | (chars, some error) => chars ++ replacement :: utf8Chars (skipError bytes error)
termination_by bytes.length
decreasing_by exact (fromUtf8_error _h).1

/-- **The characters that are drawn** for some bytes. -/
theorem utf8Chars_eq (bytes : List UInt8) : utf8Chars bytes = lossy bytes := by
  induction hn : bytes.length using Nat.strong_induction_on generalizing bytes with
  | _ n ih =>
    rw [utf8Chars]
    split
    · rename_i hnil
      rw [hnil, lossy]
    · split
      · rename_i chars h
        exact fromUtf8_ok h
      · rename_i chars error h
        obtain ⟨hlt, hlossy⟩ := fromUtf8_error h
        rw [hlossy, ih _ (hn ▸ hlt) _ rfl]

/-! ### Glyphs -/

/-- The characters of a text in the table of a font. -/
def tableText (bytes : List UInt8) : Option (List Char) :=
  match fromUtf8 bytes with
  | (chars, none) => some chars
  | (_, some _) => none

/-- A sequence in a table of 16-bit numbers. -/
def skipSequence : List UInt8 → List UInt8
  | low :: high :: rest =>
    if low.toNat + 256 * high.toNat = 0xffff then rest else skipSequence rest
  | rest => rest

/-- One glyph of a table of 16-bit numbers: whether it is for the character. -/
def numbersOfGlyph (character : ℕ) : List UInt8 → Bool × List UInt8
  | low :: high :: rest =>
    let codepoint := low.toNat + 256 * high.toNat
    if codepoint = 0xffff then (false, rest)
    else if codepoint = 0xfffe then (false, skipSequence rest)
    else if codepoint = character then (true, rest)
    else numbersOfGlyph character rest
  | rest => (false, rest)

/-- The first of `count` glyphs, from `glyph` on, in a table of 16-bit numbers. -/
def findNumber (character : ℕ) : ℕ → ℕ → List UInt8 → Option ℕ
  | 0, _, _ => none
  | count + 1, glyph, table =>
    let (found, rest) := numbersOfGlyph character table
    if found then some glyph else findNumber character count (glyph + 1) rest

/-- One glyph of a table of texts. -/
def textsOfGlyph (character : Char) : List UInt8 → Option (Bool × List UInt8)
  | [] => some (false, [])
  | b :: rest =>
    if b = 0xff then some (false, b :: rest)
    else if b = 0xfe then some (false, rest.dropWhile (· ≠ 0xff))
    else do
      let chars ← tableText (b :: rest.takeWhile fun x => x ≠ 0xfe ∧ x ≠ 0xff)
      if character ∈ chars then some (true, rest)
      else textsOfGlyph character (rest.dropWhile fun x => x ≠ 0xfe ∧ x ≠ 0xff)
termination_by table => table.length
decreasing_by
  exact Nat.lt_succ_of_le (List.dropWhile_sublist _).length_le

/-- The first of `count` glyphs, from `glyph` on, in a table of texts. -/
def findText (character : Char) : ℕ → ℕ → List UInt8 → Option ℕ
  | 0, _, _ => none
  | count + 1, glyph, table => do
    let (found, rest) ← textsOfGlyph character table
    if found then some glyph
    else match rest with
      | b :: rest => if b = 0xff then findText character count (glyph + 1) rest else none
      | [] => none

def glyphIndex (s : Screen) (font : List UInt8) (character : Char) : Option ℕ :=
  if character.toNat < 128 ∧ character.toNat < s.glyphCount then some character.toNat
  else if s.hasUnicodeTable = false ∨ font.length ≤ s.unicodeOffset then none
  else if [0x36, 0x04].isPrefixOf font then
    findNumber character.toNat s.glyphCount 0 (font.drop s.unicodeOffset)
  else findText character s.glyphCount 0 (font.drop s.unicodeOffset)

/-- The pixel of a glyph, if it is set. -/
def glyphPixel (font : List UInt8) (start row column : ℕ) (s : Screen) : Screen :=
  let rowBytes := (s.fontWidth + 7) / 8
  let byteIndex := start + row * rowBytes + column / 8
  if byteIndex < font.length ∧
      font.getD byteIndex 0 &&& (0x80 >>> UInt8.ofNat (column % 8)) ≠ 0 then
    pixel (s.cursorX + column) (s.cursorY + row) s.foreground s
  else s

def drawGlyph (character : Char) (s : Screen) : Screen :=
  match s.font with
  | none => s
  | some font =>
    match (glyphIndex s font character).or (glyphIndex s font '?') with
    | none => s
    | some glyph =>
      if s.glyphCount ≤ glyph ∨ 32 < s.fontWidth ∨ 64 < s.fontHeight then s
      else
        let s := eraseCell s.cursorX s.cursorY s
        let start := s.glyphOffset + glyph * s.glyphBytes
        let s := forRange 0 s.fontHeight (fun row => forRange 0 s.fontWidth fun column =>
          glyphPixel font start row column) s
        { s with cursorX := s.cursorX + s.fontWidth }

/-! ### Characters -/

/-- What a character does to the cursor and the cell there. -/
def placeChar (character : Char) (s : Screen) : Screen :=
  if character = '\n' then { s with cursorX := 0, cursorY := s.cursorY + s.fontHeight }
  else if character = '\r' then { s with cursorX := 0 }
  else if character = '\x08' then
    let moved := { s with cursorX := s.cursorX - s.fontWidth }
    if moved.cursorX ≠ s.cursorX then eraseCell moved.cursorX moved.cursorY moved else moved
  else if character = '\t' then
    let tabWidth := s.fontWidth * 4
    { s with cursorX := (s.cursorX / tabWidth + 1) * tabWidth }
  else drawGlyph character s

/-- The next line, when no character fits behind the cursor. -/
def wrapLine (s : Screen) : Screen :=
  if s.width < s.cursorX + s.fontWidth then
    { s with cursorX := 0, cursorY := s.cursorY + s.fontHeight }
  else s

def writeChar (s : Screen) (character : Char) : Screen :=
  if s.present = false then s
  else
    let s := wrapLine (placeChar character (drawCursor false s))
    if s.height < s.cursorY + s.fontHeight then scrollOneLine s else s

def writeUtf8 (s : Screen) (bytes : List UInt8) : Screen := (utf8Chars bytes).foldl writeChar s

end ImagineOS.Framebuffer
