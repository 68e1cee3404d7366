import Mathlib.Algebra.Group.Int.Defs
import Mathlib.Order.Basic

/-!
# Display: themes

The theme of the windows is read from a style sheet: rules for selectors such as
`#titlebar.focused`, in two passes, those without a variant first. A dimension is a number of pixels
that is not zero, and as large as 32 bits allow (`applyCss_sized`). Nothing else bounds it.
-/

namespace ImagineOS.Display

/-! ### Themes -/

/-- A color, or what is in a buffer of them. -/
abbrev Pixel : Type := BitVec 32

structure WindowTheme where
  desktop : Pixel
  desktopAccent : Pixel
  window : Pixel
  windowAlt : Pixel
  titleActive : Pixel
  titleInactive : Pixel
  titleText : Pixel
  borderColor : Pixel
  buttonClose : Pixel
  buttonMinimize : Pixel
  cursorColor : Pixel
  cursorOutline : Pixel
  border : ℤ
  titleHeight : ℤ
  buttonSize : ℤ
  cursorSize : ℤ
  deriving DecidableEq

def WindowTheme.defaults : WindowTheme where
  desktop := 0x17212b
  desktopAccent := 0x1f6f78
  window := 0xe8edf2
  windowAlt := 0xd8e0e8
  titleActive := 0x176b87
  titleInactive := 0x465563
  titleText := 0xffffff
  borderColor := 0x0b1118
  buttonClose := 0xc94c4c
  buttonMinimize := 0xe0ad4f
  cursorColor := 0xffffff
  cursorOutline := 0x101820
  border := 2
  titleHeight := 18
  buttonSize := 12
  cursorSize := 10

/-! ### Words of a style sheet -/

namespace Css

/-- `"background-color"` -/
def backgroundColor : List UInt8 :=
  [98, 97, 99, 107, 103, 114, 111, 117, 110, 100, 45, 99, 111, 108, 111, 114]

/-- `"background"` -/
def background : List UInt8 := [98, 97, 99, 107, 103, 114, 111, 117, 110, 100]

/-- `"border-color"` -/
def borderColor : List UInt8 := [98, 111, 114, 100, 101, 114, 45, 99, 111, 108, 111, 114]

/-- `"color"` -/
def color : List UInt8 := [99, 111, 108, 111, 114]

/-- `"height"` -/
def height : List UInt8 := [104, 101, 105, 103, 104, 116]

/-- `"width"` -/
def width : List UInt8 := [119, 105, 100, 116, 104]

/-- `"size"` -/
def size : List UInt8 := [115, 105, 122, 101]

/-- `"border-width"` -/
def borderWidth : List UInt8 := [98, 111, 114, 100, 101, 114, 45, 119, 105, 100, 116, 104]

/-- `"border"` -/
def border : List UInt8 := [98, 111, 114, 100, 101, 114]

/-- `"titlebar"` -/
def titlebar : List UInt8 := [116, 105, 116, 108, 101, 98, 97, 114]

/-- `"focused"` -/
def focused : List UInt8 := [102, 111, 99, 117, 115, 101, 100]

/-- `"unfocused"` -/
def unfocused : List UInt8 := [117, 110, 102, 111, 99, 117, 115, 101, 100]

/-- `"button"` -/
def button : List UInt8 := [98, 117, 116, 116, 111, 110]

/-- `"close"` -/
def close : List UInt8 := [99, 108, 111, 115, 101]

/-- `"minimize"` -/
def minimize : List UInt8 := [109, 105, 110, 105, 109, 105, 122, 101]

/-- `"cursor"` -/
def cursor : List UInt8 := [99, 117, 114, 115, 111, 114]

/-- `"outline"` -/
def outline : List UInt8 := [111, 117, 116, 108, 105, 110, 101]

/-- `"desktop"` -/
def desktop : List UInt8 := [100, 101, 115, 107, 116, 111, 112]

/-- `"window"` -/
def window : List UInt8 := [119, 105, 110, 100, 111, 119]

/-- `"white"` -/
def white : List UInt8 := [119, 104, 105, 116, 101]

/-- `"black"` -/
def black : List UInt8 := [98, 108, 97, 99, 107]

/-- `is_ascii_whitespace` -/
def isWhitespace (byte : UInt8) : Bool := byte ∈ [32, 9, 10, 12, 13]

/-- `to_ascii_lowercase` -/
def toLowercase (byte : UInt8) : UInt8 := if 65 ≤ byte ∧ byte ≤ 90 then byte + 32 else byte

/-- `is_ascii_digit` -/
def isDigit (byte : UInt8) : Bool := 48 ≤ byte && byte ≤ 57

def trim (bytes : List UInt8) : List UInt8 :=
  ((bytes.dropWhile isWhitespace).reverse.dropWhile isWhitespace).reverse

def nameIs (name expected : List UInt8) : Bool := name.map toLowercase == expected

def selectorMatches (selector base : List UInt8) (modifier : Option (List UInt8)) : Bool :=
  match selector with
  | 35 :: selector =>
    let name := selector.takeWhile (· ≠ 46)
    let variant := selector.dropWhile (· ≠ 46)
    nameIs name base &&
      match variant, modifier with
      | [], _ => true
      | _ :: variant, some wanted => nameIs variant wanted
      | _ :: _, none => false
  | _ => false

/-- `to_digit(16)` -/
def hexDigit (byte : UInt8) : Option ℕ :=
  if isDigit byte then some (byte.toNat - 48)
  else if 97 ≤ toLowercase byte ∧ toLowercase byte ≤ 102 then some ((toLowercase byte).toNat - 87)
  else none

def parseHexPair (high low : UInt8) : Option ℕ := do
  return (← hexDigit high) * 16 + (← hexDigit low)

/-- A color from its channels. -/
def rgb (red green blue : ℕ) : Pixel :=
  BitVec.ofNat 32 red <<< 16 ||| BitVec.ofNat 32 green <<< 8 ||| BitVec.ofNat 32 blue

def parseColor (value : List UInt8) : Option Pixel :=
  match trim value with
  | 35 :: hex =>
    match hex with
    | [r, r', g, g', b, b'] => do
      return rgb (← parseHexPair r r') (← parseHexPair g g') (← parseHexPair b b')
    | [r, g, b] => do
      return rgb (← parseHexPair r r) (← parseHexPair g g) (← parseHexPair b b)
    | _ => none
  | value =>
    if nameIs value white then some 0xffffff
    else if nameIs value black then some 0x000000
    else none

/-- The largest number of 32 bits. -/
def i32Max : ℤ := 2 ^ 31 - 1

/-- The digits of a number, where sums and products stop at the largest one. -/
def digitsValue (digits : List UInt8) : ℤ :=
  digits.foldl (fun number digit => min (min (number * 10) i32Max + (digit.toNat - 48)) i32Max) 0

def parsePx (value : List UInt8) : Option ℤ :=
  let value := trim value
  let digits :=
    if value.drop (value.length - 2) = [112, 120] then trim (value.take (value.length - 2))
    else trim value
  if digits = [] ∨ ¬ digits.all isDigit then none else some (digitsValue digits)

/-! ### Rules -/

def setDimension (theme : WindowTheme) (selector : List UInt8) (value : ℤ) : WindowTheme :=
  if value ≤ 0 then theme
  else if selectorMatches selector titlebar none ||
    selectorMatches selector titlebar (some focused) ||
      selectorMatches selector titlebar (some unfocused) then
    { theme with titleHeight := value }
  else if selectorMatches selector button none || selectorMatches selector button (some close) then
    { theme with buttonSize := value }
  else if selectorMatches selector border none then { theme with border := value }
  else if selectorMatches selector cursor none then { theme with cursorSize := value }
  else theme

/-- What `set_property` does with a color for a variant: it returns then. -/
def setVariant (theme : WindowTheme) (selector name : List UInt8) (value : Pixel) :
    Option WindowTheme :=
  if selectorMatches selector titlebar (some focused) then
    some (if nameIs name color then { theme with titleText := value }
      else { theme with titleActive := value })
  else if selectorMatches selector titlebar (some unfocused) then
    some { theme with titleInactive := value }
  else if selectorMatches selector button (some close) then some { theme with buttonClose := value }
  else if selectorMatches selector button (some minimize) then
    some { theme with buttonMinimize := value }
  else if selectorMatches selector cursor (some outline) then
    some { theme with cursorOutline := value }
  else none

/-- What `set_property` does with a color otherwise. -/
def setColor (theme : WindowTheme) (selector name : List UInt8) (value : Pixel) : WindowTheme :=
  if selectorMatches selector desktop none then { theme with desktop := value }
  else if selectorMatches selector window none then { theme with window := value }
  else if selectorMatches selector titlebar none then
    if nameIs name color then { theme with titleText := value }
    else { theme with titleActive := value }
  else if selectorMatches selector button none then { theme with buttonClose := value }
  else if selectorMatches selector border none then { theme with borderColor := value }
  else if selectorMatches selector cursor none then
    if nameIs name color || nameIs name borderColor then { theme with cursorOutline := value }
    else { theme with cursorColor := value }
  else theme

def setProperty (theme : WindowTheme) (selector name value : List UInt8) : WindowTheme :=
  let parsedColor :=
    if nameIs name backgroundColor || nameIs name background || nameIs name borderColor ||
        nameIs name color then parseColor value
    else none
  let dimension :=
    if nameIs name height || nameIs name width || nameIs name size || nameIs name borderWidth ||
        nameIs name border then parsePx value
    else none
  match parsedColor with
  | none => dimension.elim theme (setDimension theme selector)
  | some value =>
    match setVariant theme selector name value with
    | some theme => theme
    | none =>
      let theme := setColor theme selector name value
      dimension.elim theme (setDimension theme selector)

/-- `apply_rule`: every round takes at least a byte of the body, so its length is enough. -/
def applyRule (selector : List UInt8) : ℕ → List UInt8 → WindowTheme → WindowTheme
  | 0, _, theme => theme
  | fuel + 1, body, theme =>
    let body := body.dropWhile isWhitespace
    match body.dropWhile (· ≠ 58) with
    | [] => theme
    | _ :: rest =>
      let name := trim (body.takeWhile (· ≠ 58))
      let value := trim (rest.takeWhile fun byte => byte ≠ 59 ∧ byte ≠ 125)
      applyRule selector fuel (rest.dropWhile fun byte => byte ≠ 59 ∧ byte ≠ 125).tail
        (setProperty theme selector name value)

/-! ### Style sheets -/

def skipBlock (source : List UInt8) : List UInt8 := (source.dropWhile (· ≠ 125)).tail

/-- What follows the end of a comment. -/
def skipComment : List UInt8 → List UInt8
  | 42 :: 47 :: rest => rest
  | _ :: byte :: rest => skipComment (byte :: rest)
  | _ => []

/-- `skip_whitespace_and_comments`: every comment takes bytes, so their number is enough. -/
def skipWhitespaceAndComments : ℕ → List UInt8 → List UInt8
  | 0, source => source
  | fuel + 1, source =>
    match source.dropWhile isWhitespace with
    | 47 :: 42 :: rest => skipWhitespaceAndComments fuel (skipComment rest)
    | source => source

/-- `apply_css_pass`: every round takes at least a byte, so their number is enough. -/
def applyCssPass (specific : Bool) : ℕ → List UInt8 → WindowTheme → WindowTheme
  | 0, _, theme => theme
  | _, [], theme => theme
  | fuel + 1, source, theme =>
    match skipWhitespaceAndComments source.length source with
    | 35 :: rest =>
      let selector := trim ((35 :: rest).takeWhile (· ≠ 123))
      match (35 :: rest).dropWhile (· ≠ 123) with
      | [] => theme
      | _ :: block =>
        if (selector.drop 1).contains 46 ≠ specific then
          applyCssPass specific fuel (skipBlock block) theme
        else
          let body := block.take (block.length - (skipBlock block).length - 1)
          applyCssPass specific fuel (skipBlock block)
            (applyRule selector body.length body theme)
    | source => applyCssPass specific fuel (skipBlock (source.dropWhile (· ≠ 123))) theme

end Css

def applyCss (theme : WindowTheme) (source : List UInt8) : WindowTheme :=
  Css.applyCssPass true source.length source (Css.applyCssPass false source.length source theme)

/-! ### Dimensions -/

/-- Dimensions that a style sheet can give. -/
structure Sized (theme : WindowTheme) : Prop where
  border : 1 ≤ theme.border ∧ theme.border ≤ Css.i32Max
  titleHeight : 1 ≤ theme.titleHeight ∧ theme.titleHeight ≤ Css.i32Max
  buttonSize : 1 ≤ theme.buttonSize ∧ theme.buttonSize ≤ Css.i32Max
  cursorSize : 1 ≤ theme.cursorSize ∧ theme.cursorSize ≤ Css.i32Max

section Sized

open Css

variable {theme : WindowTheme} {selector name value : List UInt8}

theorem Sized.defaults : Sized .defaults := ⟨by decide, by decide, by decide, by decide⟩

theorem digitsValue_le (digits : List UInt8) : digitsValue digits ≤ i32Max := by
  have hfold : ∀ (digits : List UInt8) (n : ℤ), n ≤ i32Max → digits.foldl (fun number digit =>
      min (min (number * 10) i32Max + (digit.toNat - 48)) i32Max) n ≤ i32Max := by
    intro digits
    induction digits with
    | nil => exact fun n hn => hn
    | cons digit digits ih => exact fun n _ => ih _ (Int.min_le_right _ _)
  exact hfold digits 0 (by decide)

theorem parsePx_le {n : ℤ} (h : parsePx value = some n) : n ≤ i32Max := by
  unfold parsePx at h
  obtain ⟨-, h⟩ := Option.ite_none_left_eq_some.mp h
  exact Option.some.inj h ▸ digitsValue_le _

theorem Sized.setDimension (h : Sized theme) {n : ℤ} (hn : n ≤ i32Max) :
    Sized (setDimension theme selector n) := by
  rw [Css.setDimension]
  split
  · exact h
  rename_i hpos
  have hsize : 1 ≤ n ∧ n ≤ i32Max := ⟨by omega, hn⟩
  split
  · exact ⟨h.border, hsize, h.buttonSize, h.cursorSize⟩
  split
  · exact ⟨h.border, h.titleHeight, hsize, h.cursorSize⟩
  split
  · exact ⟨hsize, h.titleHeight, h.buttonSize, h.cursorSize⟩
  split
  · exact ⟨h.border, h.titleHeight, h.buttonSize, hsize⟩
  · exact h

/-- The dimensions of a theme. -/
def WindowTheme.dimensions (theme : WindowTheme) : ℤ × ℤ × ℤ × ℤ :=
  (theme.border, theme.titleHeight, theme.buttonSize, theme.cursorSize)

theorem dimensions_setVariant {theme' : WindowTheme} {value : Pixel}
    (h : setVariant theme selector name value = some theme') :
    theme'.dimensions = theme.dimensions := by
  unfold setVariant at h
  split at h
  · obtain rfl := Option.some.inj h
    split <;> rfl
  split at h
  · exact Option.some.inj h ▸ rfl
  split at h
  · exact Option.some.inj h ▸ rfl
  split at h
  · exact Option.some.inj h ▸ rfl
  split at h
  · exact Option.some.inj h ▸ rfl
  · cases h

theorem dimensions_setColor (theme : WindowTheme) (selector name : List UInt8) (value : Pixel) :
    (setColor theme selector name value).dimensions = theme.dimensions := by
  rw [setColor]
  repeat' first | rfl | split

theorem Sized.congr {theme' : WindowTheme} (h : Sized theme)
    (hsame : theme'.dimensions = theme.dimensions) : Sized theme' := by
  simp only [WindowTheme.dimensions, Prod.mk.injEq] at hsame
  obtain ⟨hborder, htitle, hbutton, hcursor⟩ := hsame
  exact ⟨hborder ▸ h.border, htitle ▸ h.titleHeight, hbutton ▸ h.buttonSize, hcursor ▸ h.cursorSize⟩

theorem Sized.setProperty (h : Sized theme) : Sized (setProperty theme selector name value) := by
  have hdimension : ∀ {theme : WindowTheme} (_ : Sized theme) (dimension : Option ℤ),
      (∀ n, dimension = some n → n ≤ i32Max) →
      Sized (dimension.elim theme (Css.setDimension theme selector)) := fun h dimension hle => by
    cases dimension with
    | none => exact h
    | some n => exact h.setDimension (hle n rfl)
  have hparsed : ∀ (b : Bool) n, (if b then parsePx value else none) = some n → n ≤ i32Max :=
    fun b n hn => by
      cases b with
      | false => cases hn
      | true => exact parsePx_le hn
  simp only [Css.setProperty]
  split
  · exact hdimension h _ (hparsed _)
  · split
    · rename_i hvariant
      exact h.congr (dimensions_setVariant hvariant)
    · exact hdimension (h.congr (dimensions_setColor _ _ _ _)) _ (hparsed _)

theorem Sized.applyRule (h : Sized theme) (fuel : ℕ) (body : List UInt8) :
    Sized (applyRule selector fuel body theme) := by
  induction fuel generalizing body theme with
  | zero => exact h
  | succ fuel ih =>
    simp only [Css.applyRule]
    split
    · exact h
    · exact ih h.setProperty _

theorem Sized.applyCssPass (h : Sized theme) (specific : Bool) (fuel : ℕ) (source : List UInt8) :
    Sized (applyCssPass specific fuel source theme) := by
  induction fuel generalizing source theme with
  | zero => exact h
  | succ fuel ih =>
    cases source with
    | nil => exact h
    | cons byte source =>
      simp only [Css.applyCssPass]
      split
      · split
        · exact h
        · split
          · exact ih h _
          · exact ih (h.applyRule _ _) _
      · exact ih h _

/-- **Dimensions** of a theme after a style sheet, whatever it holds. -/
theorem applyCss_sized (h : Sized theme) (source : List UInt8) : Sized (applyCss theme source) :=
  (h.applyCssPass false _ source).applyCssPass true _ source

end Sized

/-- A rule with a variant comes second. -/
example :
    let theme := applyCss .defaults
      [35, 99, 117, 114, 115, 111, 114, 123, 115, 105, 122, 101, 58, 32, 51, 51, 112, 120, 59, 125]
    theme.cursorSize = 33 ∧ theme.border = 2 := by decide +kernel

end ImagineOS.Display
