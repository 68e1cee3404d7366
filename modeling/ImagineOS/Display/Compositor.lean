import ImagineOS.Checked
import ImagineOS.Display.Events
import ImagineOS.Display.Theme
import ImagineOS.Paint
import Mathlib.Tactic.NormNum

/-!
# Display: the compositor

The window manager draws everything into a buffer of its own, and shows it in one go. What it draws
does not depend on what was drawn before, so a drawing is a list of writes. Only the cursor is
different: what is behind it is saved, so that a pointer that moves needs no more than a part of the
screen (`updateCursorOnly`).
-/

namespace ImagineOS.Display

open List

/-! ### Numbers -/

/-- Why the window manager stops. -/
inductive Stop
  | overflow
  /-- It is outside of a buffer. -/
  | outside
  /-- It was asked to. -/
  | exit
  deriving DecidableEq

/-- The numbers of 32 bits. -/
def InI32 (n : ℤ) : Prop := -2 ^ 31 ≤ n ∧ n < 2 ^ 31

instance (n : ℤ) : Decidable (InI32 n) := inferInstanceAs (Decidable (_ ∧ _))

/-- A sum, a difference or a product, with the check that is made. -/
def i32 (n : ℤ) : Except Stop ℤ := if InI32 n then .ok n else .error .overflow

/-- `as i32` -/
def asI32 (n : ℕ) : ℤ := Int.bmod n (2 ^ 32)

/-- `as usize` -/
def asUsize (n : ℤ) : ℕ := (n % 2 ^ 64).toNat

theorem asI32_mem (n : ℕ) : InI32 (asI32 n) := by
  have hlow := Int.le_bmod (x := n) (m := 2 ^ 32) (by decide)
  have hhigh := Int.bmod_lt (x := n) (m := 2 ^ 32) (by decide)
  unfold asI32
  exact ⟨by simpa using hlow, by simpa using hhigh⟩

theorem asI32_of_lt {n : ℕ} (h : n < 2 ^ 31) : asI32 n = n := by
  have hlow : -(((2 ^ 32 : ℕ) : ℤ) / 2) ≤ n := by norm_num
  have hhigh : (n : ℤ) < ((2 ^ 32 : ℕ) + 1) / 2 := by
    norm_num at h ⊢
    exact h
  exact Int.bmod_eq_of_le hlow hhigh

theorem asI32_ne_zero {n : ℕ} (h : n ≠ 0) (hlt : n < 2 ^ 32) : asI32 n ≠ 0 := by
  intro hzero
  have hdvd : ((2 ^ 32 : ℕ) : ℤ) ∣ n := Int.dvd_of_bmod_eq_zero hzero
  have hle := Nat.le_of_dvd (Nat.pos_of_ne_zero h) (Int.natCast_dvd_natCast.mp hdvd)
  omega

-- From here on, no proof needs to look into the remainder.
attribute [irreducible] asI32

def saturatingAdd (a b : ℤ) : ℤ := max (-2 ^ 31) (min (a + b) (2 ^ 31 - 1))

/-- `a..b` -/
def span (a b : ℤ) : List ℤ := (List.range (b - a).toNat).map fun k : ℕ => a + k

/-! ### Buffers -/

def maxScreenWidth : ℕ := 1920

def maxScreenHeight : ℕ := 1080

def screenPixels : ℕ := maxScreenWidth * maxScreenHeight

def maxCursorWidth : ℕ := 32

def maxCursorHeight : ℕ := 32

/-- `MAX_WIDTH`, of a window. -/
def maxWidth : ℕ := 320

/-- `MAX_HEIGHT`, of a window. -/
def maxHeight : ℕ := 200

def windowPixels : ℕ := maxWidth * maxHeight

/-- A pixel is written at an index. -/
abbrev Write : Type := ℕ × Pixel

/-- A pixel is read from a buffer of a size. -/
def readAt (size : ℕ) (buffer : ℕ → Pixel) (index : ℕ) : Except Stop Pixel :=
  if index < size then .ok (buffer index) else .error .outside

/-- Writes into a buffer of a size. -/
def writeAll (size : ℕ) (writes : List Write) (buffer : ℕ → Pixel) : Except Stop (ℕ → Pixel) :=
  if writes.all (·.1 < size) then .ok (paint writes buffer) else .error .outside

/-- The writes of a loop. -/
def drawAll {β : Type} (f : β → Except Stop (List Write)) : List β → Except Stop (List Write)
  | [] => .ok []
  | x :: xs => do return (← f x) ++ (← drawAll f xs)

/-- The index of a pixel of the back buffer. Coordinates are not negative where it is used. -/
def backIndex (x y : ℤ) : ℕ := y.toNat * maxScreenWidth + x.toNat

/-! ### The screen -/

structure Framebuffer where
  width : ℕ
  height : ℕ
  pitchWords : ℕ
  redShift : ℕ
  greenShift : ℕ
  blueShift : ℕ
  deriving DecidableEq

namespace Framebuffer

variable (fb : Framebuffer)

/-- `width() as i32` -/
def screenWidth : ℤ := asI32 fb.width

/-- `height() as i32` -/
def screenHeight : ℤ := asI32 fb.height

def color (rgb : Pixel) : Pixel :=
  (((rgb >>> 16) &&& 0xff) <<< (fb.redShift % 32)) |||
    (((rgb >>> 8) &&& 0xff) <<< (fb.greenShift % 32)) |||
    ((rgb &&& 0xff) <<< (fb.blueShift % 32))

def copyRow (source : ℕ → Pixel) (count column row : ℕ) : List Write :=
  if fb.height ≤ row then []
  else ((List.range count).takeWhile fun k => column + k < fb.width).map fun k =>
    (row * fb.pitchWords + column + k, source k)

def screenPixel (x y : ℤ) (color : Pixel) : List Write :=
  if x < 0 ∨ y < 0 ∨ fb.screenWidth ≤ x ∨ fb.screenHeight ≤ y then [] else [(backIndex x y, color)]

def screenFill (x y width height : ℤ) (color : Pixel) : List Write :=
  let left := max x 0
  let top := max y 0
  let right := min (saturatingAdd x width) fb.screenWidth
  let bottom := min (saturatingAdd y height) fb.screenHeight
  if right ≤ left ∨ bottom ≤ top then []
  else (span top bottom).flatMap fun row => (span left right).map fun column =>
    (backIndex column row, color)

end Framebuffer

structure Rect where
  x : ℤ
  y : ℤ
  width : ℤ
  height : ℤ
  deriving DecidableEq

namespace Rect

def empty : Rect := ⟨0, 0, 0, 0⟩

def isEmpty (r : Rect) : Bool := r.width ≤ 0 || r.height ≤ 0

def union (r s : Rect) : Except Stop Rect :=
  if r.isEmpty then .ok s
  else if s.isEmpty then .ok r
  else do
    let left := min r.x s.x
    let top := min r.y s.y
    let right := max (← i32 (r.x + r.width)) (← i32 (s.x + s.width))
    let bottom := max (← i32 (r.y + r.height)) (← i32 (s.y + s.height))
    return ⟨left, top, ← i32 (right - left), ← i32 (bottom - top)⟩

end Rect

/-! ### Windows and surfaces -/

/-- `Window`: the text of its title, and sizes that are in their bounds. -/
structure Window where
  title : List Char
  x : ℤ
  y : ℤ
  width : ℤ
  height : ℤ
  canvas : ℕ → Pixel
  z : BitVec 32
  border : ℤ
  titleHeight : ℤ
  title_le : title.length ≤ 32
  width_mem : 1 ≤ width ∧ width ≤ 320
  height_mem : 1 ≤ height ∧ height ≤ 200
  border_nonneg : 0 ≤ border
  titleHeight_pos : 1 ≤ titleHeight

namespace Window

/-- `new`, with what is then drawn into the canvas, and with a title as it is read again. -/
def new (title : {title : List Char // title.length ≤ 32}) (x y width height : ℤ)
    (canvas : ℕ → Pixel) (border titleHeight : ℤ) : Window where
  title := title.1
  x := x
  y := y
  width := max 1 (min width 320)
  height := max 1 (min height 200)
  canvas := canvas
  z := 0
  border := max border 0
  titleHeight := max titleHeight 1
  title_le := title.2
  width_mem := by omega
  height_mem := by omega
  border_nonneg := by omega
  titleHeight_pos := by omega

/-- The place of a window is at least at `lo`, and less than the sum of `lo` and some sizes. -/
def within (p lo : ℤ) (sizes : List (Except Stop ℤ)) : Except Stop Bool :=
  if p < lo then .ok false
  else do
    let stop ← sizes.foldlM (fun sum size => do i32 (sum + (← size))) lo
    return p < stop

def holdsTitle (w : Window) (x y : ℤ) : Except Stop Bool := do
  if ← within x w.x [.ok w.width, i32 (2 * w.border)] then within y w.y [.ok w.titleHeight]
  else return false

def contains (w : Window) (x y : ℤ) : Except Stop Bool := do
  if ← within x w.x [.ok w.width, i32 (2 * w.border)] then
    within y w.y [.ok w.height, .ok w.titleHeight, .ok w.border]
  else return false

def moveTo (w : Window) (x y screenWidth screenHeight : ℤ) : Except Stop Window := do
  let width ← i32 (w.width + (← i32 (2 * w.border)))
  let height ← i32 ((← i32 (w.height + w.titleHeight)) + w.border)
  let maxX := max (← i32 (screenWidth - width)) 0
  let maxY := max (← i32 (screenHeight - height)) 0
  return { w with x := max 0 (min x maxX), y := max 0 (min y maxY) }

end Window

/-- `SurfaceSnapshot`, within the limits of the ABI. -/
structure Snapshot where
  id : ℕ
  width : ℕ
  height : ℕ
  pitch : ℕ
  address : ℕ
  width_mem : 1 ≤ width ∧ width ≤ surfaceMaxWidth
  height_mem : 1 ≤ height ∧ height ≤ surfaceMaxHeight
  pitch_eq : pitch = width
  deriving DecidableEq

/-- `ExternalSurface`: a snapshot that has a place. -/
structure ExternalSurface extends Snapshot where
  x : ℤ
  y : ℤ
  deriving DecidableEq

/-! ### The compositor -/

/-- `Compositor`. The first `count` windows are those of the list; `screen` is the memory of the
framebuffer, and `memory` what the buffers of clients hold, by their addresses. -/
structure Compositor where
  framebuffer : Framebuffer
  screen : ℕ → Pixel
  backbuffer : ℕ → Pixel
  windows : List Window
  focused : ℕ
  pointerX : ℤ
  pointerY : ℤ
  dragging : Option ℕ
  dragOffsetX : ℤ
  dragOffsetY : ℤ
  lastLeft : Bool
  external : List ExternalSurface
  memory : ℕ → ℕ → Pixel
  dirty : Bool
  frameNumber : BitVec 32
  theme : WindowTheme
  cursorRect : Rect
  cursorPresent : Bool
  cursorDirty : Bool
  cursorSaved : ℕ → Pixel

namespace Compositor

/-- `new`, after the theme was loaded and the windows were added. -/
def new (framebuffer : Framebuffer) (screen : ℕ → Pixel) (theme : WindowTheme)
    (windows : List Window) :
    Compositor where
  framebuffer := framebuffer
  screen := screen
  backbuffer _ := 0
  windows := windows
  focused := windows.length - 1
  pointerX := 32
  pointerY := 32
  dragging := none
  dragOffsetX := 0
  dragOffsetY := 0
  lastLeft := false
  external := []
  memory _ _ := 0
  dirty := true
  frameNumber := 0
  theme := theme
  cursorRect := .empty
  cursorPresent := false
  cursorDirty := false
  cursorSaved _ := 0

/-! ### Drawing -/

def drawDesktopBar (c : Compositor) : List Write :=
  let fb := c.framebuffer
  fb.screenFill 0 0 fb.screenWidth 24 (fb.color c.theme.borderColor) ++
    fb.screenFill 0 23 fb.screenWidth 1 (fb.color c.theme.desktopAccent)

/-- An index goes before those with a higher `z`, in a list that begins with the highest. -/
def sink (z : ℕ → BitVec 32) (index : ℕ) : List ℕ → List ℕ
  | [] => [index]
  | left :: rest => if z left ≤ z index then index :: left :: rest else left :: sink z index rest

/-- The order in which windows are drawn. -/
def order (c : Compositor) : List ℕ :=
  let z := fun index => (c.windows[index]?.map (·.z)).getD 0
  ((List.range c.windows.length).foldl (fun sorted index => sink z index sorted) []).reverse

section Font

-- `font::glyph`: the rows of the bitmap of a character, which may be any.
variable (glyph : Char → ℕ → BitVec 8)

def drawText (fb : Framebuffer) (y : ℤ) (color : Pixel) : ℤ → List Char → Except Stop (List Write)
  | _, [] => .ok []
  | x, character :: rest => do
    let here ← drawAll (fun row : ℕ => drawAll (fun column : ℕ =>
      if (glyph character row).getMsbD column then do
        return fb.screenPixel (← i32 (x + column)) (← i32 (y + row)) color
      else .ok []) (List.range 8)) (List.range 8)
    return here ++ (← drawText fb y color (← i32 (x + 9)) rest)

def drawWindow (c : Compositor) (window : Window) (focused : Bool) : Except Stop (List Write) := do
  let fb := c.framebuffer
  let title := fb.color (if focused then c.theme.titleActive else c.theme.titleInactive)
  let contentX ← i32 (window.x + window.border)
  let contentY ← i32 (window.y + window.titleHeight)
  let outerWidth ← i32 (window.width + (← i32 (2 * window.border)))
  let outerHeight ← i32 ((← i32 (window.height + window.titleHeight)) + window.border)
  let button := c.theme.buttonSize
  let right ← i32 (window.x + outerWidth)
  let closeX ← i32 ((← i32 (right - button)) - 3)
  let buttonY ← i32 (window.y + (← i32 (window.titleHeight - button)).tdiv 2)
  let minimizeX ← i32 ((← i32 (right - (← i32 (button * 2)))) - 7)
  let content ← drawAll (fun row : ℕ => drawAll (fun column : ℕ => do
    let pixel ← readAt windowPixels window.canvas (row * maxWidth + column)
    return fb.screenPixel (← i32 (contentX + column)) (← i32 (contentY + row)) pixel)
    (List.range window.width.toNat)) (List.range window.height.toNat)
  let textX ← i32 (contentX + 8)
  let textY ← i32 (window.y + (← i32 (window.titleHeight - 8)).tdiv 2)
  let text ← drawText glyph fb textY (fb.color c.theme.titleText) textX window.title
  return fb.screenFill window.x window.y outerWidth outerHeight (fb.color c.theme.borderColor) ++
    fb.screenFill contentX window.y window.width window.titleHeight title ++
    fb.screenFill closeX buttonY button button (fb.color c.theme.buttonClose) ++
    fb.screenFill minimizeX buttonY button button (fb.color c.theme.buttonMinimize) ++ content ++
      text

def drawExternal (c : Compositor) (surface : ExternalSurface) : Except Stop (List Write) :=
  let fb := c.framebuffer
  let width := asUsize (min (surface.width : ℤ) fb.screenWidth)
  let height := asUsize (min (surface.height : ℤ) fb.screenHeight)
  drawAll (fun row : ℕ => drawAll (fun column : ℕ => do
    let pixel ← readAt (surfaceMaxWidth * surfaceMaxHeight) (c.memory surface.address)
      (row * surface.pitch + column)
    return fb.screenPixel (← i32 (surface.x + asI32 column)) (← i32 (surface.y + asI32 row)) pixel)
    (List.range width)) (List.range height)

/-- What `compose` draws before the cursor. -/
def scene (c : Compositor) : Except Stop (List Write) := do
  let fb := c.framebuffer
  let windows ← drawAll (fun index => match c.windows[index]? with
    | none => .ok []
    | some window => c.drawWindow glyph window (index == c.focused)) c.order
  let external ← drawAll c.drawExternal c.external
  return fb.screenFill 0 0 fb.screenWidth fb.screenHeight (fb.color c.theme.desktop) ++
    c.drawDesktopBar ++ windows ++ external

/-- The arrow of the cursor: an outline, and a body over it. -/
def drawArrow (c : Compositor) : Except Stop (List Write) := do
  let fb := c.framebuffer
  let size := c.theme.cursorSize
  let line := fun (color : Pixel) (row width : ℤ) => drawAll (fun column => do
    return fb.screenPixel (← i32 (c.pointerX + column)) (← i32 (c.pointerY + row)) color)
    (span 0 width)
  let outline ← drawAll (fun row => line (fb.color c.theme.cursorOutline) row
    (min (row / 2 + 1) (size - row / 2))) (span 0 size)
  let body ← drawAll (fun row => line (fb.color c.theme.cursorColor) row (max (row / 2) 1))
    (span 1 (← i32 (size - 2)))
  return outline ++ body

/-- The pixels behind the cursor are saved, line by line. -/
def saveBehind (c : Compositor) (left top right bottom : ℤ) : Except Stop (List Write) :=
  if left < right ∧ top < bottom then
    drawAll (fun row => drawAll (fun column => do
      let value ← readAt screenPixels c.backbuffer (backIndex column row)
      return [((row - top).toNat * maxCursorWidth + (column - left).toNat, value)])
      (span left right)) (span top bottom)
  else .ok []

def drawCursorAndSave (c : Compositor) : Except Stop Compositor := do
  let left := max c.pointerX 0
  let top := max c.pointerY 0
  let right := min (← i32 (c.pointerX + c.theme.cursorSize)) c.framebuffer.screenWidth
  let bottom := min (← i32 (c.pointerY + c.theme.cursorSize)) c.framebuffer.screenHeight
  let saves ← c.saveBehind left top right bottom
  let saved ← writeAll (maxCursorWidth * maxCursorHeight) saves c.cursorSaved
  let width ← i32 (right - left)
  let height ← i32 (bottom - top)
  let backbuffer ← writeAll screenPixels (← c.drawArrow) c.backbuffer
  return { c with
    backbuffer := backbuffer
    cursorSaved := saved
    cursorRect := ⟨left, top, width, height⟩
    cursorPresent := true }

/-- Lines of the back buffer, as they are copied to the screen. -/
def copyRows (c : Compositor) (left top right bottom : ℤ) : Except Stop (List Write) :=
  let count := (right - left).toNat
  drawAll (fun row =>
    if backIndex left row + count ≤ screenPixels then
      .ok (c.framebuffer.copyRow (fun k => c.backbuffer (backIndex left row + k)) count left.toNat
        row.toNat)
    else .error .outside) (span top bottom)

def presentRect (rect : Rect) (c : Compositor) : Except Stop Compositor :=
  if rect.isEmpty then .ok c
  else do
    let left := max rect.x 0
    let top := max rect.y 0
    let right := min (← i32 (rect.x + rect.width)) c.framebuffer.screenWidth
    let bottom := min (← i32 (rect.y + rect.height)) c.framebuffer.screenHeight
    if right ≤ left ∨ bottom ≤ top then return c
    return { c with screen := paint (← c.copyRows left top right bottom) c.screen }

def compose (c : Compositor) : Except Stop Compositor := do
  let backbuffer ← writeAll screenPixels (← c.scene glyph) c.backbuffer
  let c ← drawCursorAndSave { c with backbuffer := backbuffer }
  let c ← presentRect ⟨0, 0, c.framebuffer.screenWidth, c.framebuffer.screenHeight⟩ c
  return { c with cursorPresent := true }

/-- The saved pixels, as they are put back: line by line, but lines are as long as the rectangle is
wide. -/
def restoreBehind (rect : Rect) (c : Compositor) : Except Stop (List Write) :=
  let width := rect.width.toNat
  drawAll (fun row : ℕ => drawAll (fun column : ℕ => do
    let value ← readAt (maxCursorWidth * maxCursorHeight) c.cursorSaved (row * width + column)
    return [((rect.y.toNat + row) * maxScreenWidth + rect.x.toNat + column, value)])
    (List.range width)) (List.range rect.height.toNat)

def blitSaved (rect : Rect) (c : Compositor) : Except Stop Compositor :=
  if rect.isEmpty then .ok c
  else do
    let writes ← c.restoreBehind rect
    return { c with backbuffer := ← writeAll screenPixels writes c.backbuffer }

def updateCursorOnly (c : Compositor) : Except Stop Compositor :=
  if !c.cursorPresent then c.compose glyph
  else do
    let old := c.cursorRect
    let c ← if old.isEmpty then .ok c else c.blitSaved old
    let c ← c.drawCursorAndSave
    c.presentRect (← old.union c.cursorRect)

end Font

end Compositor

/-! ### What succeeds -/

/-- A computation does not stop. -/
def Ok {α : Type} (m : Except Stop α) : Prop := ∃ a, m = .ok a

section Ok

variable {α β : Type} {m : Except Stop α} {f : α → Except Stop β} {n : ℤ} {writes : List Write}
  {size : ℕ} {buffer : ℕ → Pixel}

theorem pure_eq_ok {a b : α} : (pure a : Except Stop α) = .ok b ↔ a = b :=
  Except.ok.injEq a b ▸ Iff.rfl

theorem i32_eq_ok {k : ℤ} : i32 n = .ok k ↔ InI32 n ∧ k = n := by
  rw [i32]
  split
  · rename_i h
    exact ⟨fun he => ⟨h, (Except.ok.inj he).symm⟩, fun he => by rw [he.2]⟩
  · rename_i h
    exact ⟨fun he => (by cases he), fun he => absurd he.1 h⟩

@[simp] theorem ok_ok (a : α) : Ok (.ok a : Except Stop α) := ⟨a, rfl⟩

@[simp] theorem ok_pure (a : α) : Ok (pure a : Except Stop α) := ⟨a, rfl⟩

theorem ok_bind : Ok (m >>= f) ↔ ∃ a, m = .ok a ∧ Ok (f a) := by
  simp only [Ok, bind_eq_ok]
  exact ⟨fun ⟨b, a, ha, hb⟩ => ⟨a, ha, b, hb⟩, fun ⟨a, ha, b, hb⟩ => ⟨b, a, ha, hb⟩⟩

theorem ok_bind_of {p : Prop} (h : ∀ a, m = .ok a → (Ok (f a) ↔ p)) : Ok (m >>= f) ↔ Ok m ∧ p := by
  rw [ok_bind]
  exact ⟨fun ⟨a, ha, hf⟩ => ⟨⟨a, ha⟩, (h a ha).mp hf⟩, fun ⟨⟨a, ha⟩, hp⟩ =>
    ⟨a, ha, (h a ha).mpr hp⟩⟩

theorem ok_i32_bind {f : ℤ → Except Stop β} : Ok (i32 n >>= f) ↔ InI32 n ∧ Ok (f n) := by
  rw [ok_bind]
  exact ⟨fun ⟨k, hk, hf⟩ => by obtain ⟨hn, rfl⟩ := i32_eq_ok.mp hk; exact ⟨hn, hf⟩,
    fun ⟨hn, hf⟩ => ⟨n, i32_eq_ok.mpr ⟨hn, rfl⟩, hf⟩⟩

theorem readAt_eq_ok {index : ℕ} {value : Pixel} :
    readAt size buffer index = .ok value ↔ index < size ∧ value = buffer index := by
  rw [readAt]
  split
  · rename_i h
    exact ⟨fun he => ⟨h, (Except.ok.inj he).symm⟩, fun he => by rw [he.2]⟩
  · rename_i h
    exact ⟨fun he => (by cases he), fun he => absurd he.1 h⟩

theorem writeAll_eq_ok {buffer' : ℕ → Pixel} :
    writeAll size writes buffer = .ok buffer' ↔
      (∀ w ∈ writes, w.1 < size) ∧ buffer' = paint writes buffer := by
  simp only [writeAll, all_eq_true, decide_eq_true_eq]
  split
  · rename_i h
    exact ⟨fun he => ⟨h, (Except.ok.inj he).symm⟩, fun he => by rw [he.2]⟩
  · rename_i h
    exact ⟨fun he => (by cases he), fun he => absurd he.1 h⟩

variable {l : List β}

theorem ok_drawAll {f : β → Except Stop (List Write)} :
    Ok (drawAll f l) ↔ ∀ x ∈ l, Ok (f x) := by
  induction l with
  | nil => simp [drawAll]
  | cons x xs ih =>
    rw [drawAll, ok_bind_of (p := ∀ x ∈ xs, Ok (f x)), forall_mem_cons]
    intro ws _
    rw [← ih, ok_bind_of (p := True)]
    · simp
    · simp

variable {w : Write}

theorem mem_drawAll {f : β → Except Stop (List Write)}
    (h : drawAll f l = .ok writes) (hw : w ∈ writes) :
    ∃ x ∈ l, ∃ ws, f x = .ok ws ∧ w ∈ ws := by
  induction l generalizing writes with
  | nil =>
    cases h
    cases hw
  | cons x xs ih =>
    rw [drawAll, bind_eq_ok] at h
    obtain ⟨first, hfirst, h⟩ := h
    obtain ⟨rest, hrest, h⟩ := bind_eq_ok.mp h
    rw [← pure_eq_ok.mp h] at hw
    rcases mem_append.mp hw with hw | hw
    · exact ⟨x, mem_cons_self, first, hfirst, hw⟩
    · obtain ⟨y, hy, hws⟩ := ih hrest hw
      exact ⟨y, mem_cons_of_mem _ hy, hws⟩

theorem mem_of_drawAll {f : β → Except Stop (List Write)} {x : β} {ws : List Write}
    (h : drawAll f l = .ok writes) (hx : x ∈ l) (hf : f x = .ok ws) (hw : w ∈ ws) :
    w ∈ writes := by
  induction l generalizing writes with
  | nil => cases hx
  | cons y ys ih =>
    rw [drawAll, bind_eq_ok] at h
    obtain ⟨first, hfirst, h⟩ := h
    obtain ⟨rest, hrest, h⟩ := bind_eq_ok.mp h
    rw [← pure_eq_ok.mp h]
    rcases mem_cons.mp hx with rfl | hx
    · rw [hf] at hfirst
      exact mem_append_left _ (Except.ok.inj hfirst ▸ hw)
    · exact mem_append_right _ (ih hrest hx)

theorem ok_grid {rows columns : List β} {slot index : β → β → ℕ} :
    Ok (drawAll (fun row => drawAll (fun column => do
      let value ← readAt size buffer (index row column)
      return [(slot row column, value)]) columns) rows) ↔
      ∀ row ∈ rows, ∀ column ∈ columns, index row column < size := by
  have hone : ∀ row column, Ok (do
      let value ← readAt size buffer (index row column)
      return [(slot row column, value)]) ↔ index row column < size := fun row column => by
    rw [ok_bind]
    exact ⟨fun ⟨_, hvalue, _⟩ => (readAt_eq_ok.mp hvalue).1,
      fun hlt => ⟨_, readAt_eq_ok.mpr ⟨hlt, rfl⟩, ok_pure _⟩⟩
  simp only [ok_drawAll, hone]

theorem mem_grid {rows columns : List β} {slot index : β → β → ℕ}
    (h : drawAll (fun row => drawAll (fun column => do
      let value ← readAt size buffer (index row column)
      return [(slot row column, value)]) columns) rows = .ok writes) :
    w ∈ writes ↔
      ∃ row ∈ rows, ∃ column ∈ columns, w = (slot row column, buffer (index row column)) := by
  have hone : ∀ row column ws, (do
      let value ← readAt size buffer (index row column)
      return [(slot row column, value)] : Except Stop (List Write)) = .ok ws →
      ws = [(slot row column, buffer (index row column))] := fun row column ws hws => by
    obtain ⟨value, hvalue, hws⟩ := bind_eq_ok.mp hws
    rw [← pure_eq_ok.mp hws, (readAt_eq_ok.mp hvalue).2]
  constructor
  · intro hw
    obtain ⟨row, hrow, ws, hws, hw⟩ := mem_drawAll h hw
    obtain ⟨column, hcolumn, ws, hws, hw⟩ := mem_drawAll hws hw
    rw [hone row column ws hws, mem_singleton] at hw
    exact ⟨row, hrow, column, hcolumn, hw⟩
  · rintro ⟨row, hrow, column, hcolumn, rfl⟩
    obtain ⟨line, hline⟩ := ok_drawAll.mp ⟨writes, h⟩ row hrow
    obtain ⟨ws, hws⟩ := ok_drawAll.mp ⟨line, hline⟩ column hcolumn
    refine mem_of_drawAll h hrow hline (mem_of_drawAll hline hcolumn hws ?_)
    rw [hone row column ws hws]
    exact mem_singleton_self _

end Ok

theorem mem_span {a b n : ℤ} : n ∈ span a b ↔ a ≤ n ∧ n < b := by
  simp only [span, List.mem_map, mem_range]
  constructor
  · rintro ⟨k, hk, rfl⟩
    omega
  · exact fun h => ⟨(n - a).toNat, by omega, by omega⟩

/-! ### Clipping -/

/-- A pixel of the screen is written. -/
def Clipped (fb : Framebuffer) (w : Write) : Prop :=
  ∃ x y, (0 ≤ x ∧ x < fb.screenWidth) ∧ (0 ≤ y ∧ y < fb.screenHeight) ∧ w.1 = backIndex x y

section Clipped

variable {fb : Framebuffer} {c : Compositor} {glyph : Char → ℕ → BitVec 8} {writes : List Write}
  {w : Write} {x y width height : ℤ} {color : Pixel}

theorem mem_screenPixel : w ∈ fb.screenPixel x y color ↔
    (0 ≤ x ∧ x < fb.screenWidth) ∧ (0 ≤ y ∧ y < fb.screenHeight) ∧ w = (backIndex x y, color) := by
  rw [Framebuffer.screenPixel]
  split
  · rename_i h
    exact iff_of_false not_mem_nil fun he => by omega
  · rename_i h
    rw [mem_singleton]
    exact ⟨fun he => ⟨by omega, by omega, he⟩, fun he => he.2.2⟩

theorem clipped_screenPixel (h : w ∈ fb.screenPixel x y color) : Clipped fb w := by
  obtain ⟨hx, hy, rfl⟩ := mem_screenPixel.mp h
  exact ⟨x, y, hx, hy, rfl⟩

theorem mem_screenFill : w ∈ fb.screenFill x y width height color ↔
    ∃ column row, (max x 0 ≤ column ∧ column < min (saturatingAdd x width) fb.screenWidth) ∧
      (max y 0 ≤ row ∧ row < min (saturatingAdd y height) fb.screenHeight) ∧
      w = (backIndex column row, color) := by
  rw [Framebuffer.screenFill]
  split
  · rename_i h
    refine iff_of_false not_mem_nil ?_
    rintro ⟨column, row, hcolumn, hrow, -⟩
    rcases h with h | h
    · exact absurd (hcolumn.1.trans_lt hcolumn.2) (not_lt.mpr h)
    · exact absurd (hrow.1.trans_lt hrow.2) (not_lt.mpr h)
  · simp only [mem_flatMap, List.mem_map, mem_span]
    constructor
    · rintro ⟨row, hrow, column, hcolumn, rfl⟩
      exact ⟨column, row, hcolumn, hrow, rfl⟩
    · rintro ⟨column, row, hcolumn, hrow, rfl⟩
      exact ⟨row, hrow, column, hcolumn, rfl⟩

theorem clipped_screenFill (h : w ∈ fb.screenFill x y width height color) : Clipped fb w := by
  obtain ⟨column, row, hcolumn, hrow, rfl⟩ := mem_screenFill.mp h
  exact ⟨column, row, ⟨(le_max_right _ _).trans hcolumn.1, hcolumn.2.trans_le (min_le_right _ _)⟩,
    ⟨(le_max_right _ _).trans hrow.1, hrow.2.trans_le (min_le_right _ _)⟩, rfl⟩

theorem clipped_drawAll {β : Type} {f : β → Except Stop (List Write)} {l : List β}
    (hf : ∀ x ws, f x = .ok ws → ∀ w ∈ ws, Clipped fb w) (h : drawAll f l = .ok writes) :
    ∀ w ∈ writes, Clipped fb w := fun w hw => by
  obtain ⟨x, -, ws, hws, hmem⟩ := mem_drawAll h hw
  exact hf x ws hws w hmem

theorem clipped_checkedPixel
    (h : (do return fb.screenPixel (← i32 x) (← i32 y) color) = .ok writes) :
    ∀ w ∈ writes, Clipped fb w := fun w hw => by
  obtain ⟨_, -, h⟩ := bind_eq_ok.mp h
  obtain ⟨_, -, h⟩ := bind_eq_ok.mp h
  rw [← pure_eq_ok.mp h] at hw
  exact clipped_screenPixel hw

theorem clipped_drawText {text : List Char}
    (h : Compositor.drawText glyph fb y color x text = .ok writes) :
    ∀ w ∈ writes, Clipped fb w := by
  induction text generalizing x writes with
  | nil =>
    cases h
    exact fun w hw => absurd hw not_mem_nil
  | cons character rest ih =>
    rw [Compositor.drawText, bind_eq_ok] at h
    obtain ⟨here, hhere, h⟩ := h
    obtain ⟨next, -, h⟩ := bind_eq_ok.mp h
    obtain ⟨rest, hrest, h⟩ := bind_eq_ok.mp h
    rw [← pure_eq_ok.mp h]
    intro w hw
    rcases mem_append.mp hw with hw | hw
    · refine clipped_drawAll (fun row ws hws => clipped_drawAll (fun column ws hws => ?_) hws) hhere
        w hw
      split at hws
      · exact clipped_checkedPixel hws
      · cases hws
        exact fun w hw => absurd hw not_mem_nil
    · exact ih hrest w hw

theorem clipped_readPixel {size index : ℕ} {buffer : ℕ → Pixel} (h : (do
      let pixel ← readAt size buffer index
      return fb.screenPixel (← i32 x) (← i32 y) pixel) = .ok writes) :
    ∀ w ∈ writes, Clipped fb w := by
  obtain ⟨_, -, h⟩ := bind_eq_ok.mp h
  exact clipped_checkedPixel h

theorem clipped_drawWindow {window : Window} {focused : Bool}
    (h : c.drawWindow glyph window focused = .ok writes) :
    ∀ w ∈ writes, Clipped c.framebuffer w := by
  simp only [Compositor.drawWindow, bind_eq_ok, pure_eq_ok] at h
  obtain ⟨_, -, _, -, _, -, _, -, _, -, _, -, _, -, _, -, _, -, _, -, _, -, _, -, _, -, _, -,
    content, hcontent, _, -, _, -, _, -, text, htext, rfl⟩ := h
  simp only [mem_append, or_imp, forall_and]
  refine ⟨⟨⟨⟨⟨?_, ?_⟩, ?_⟩, ?_⟩, ?_⟩, clipped_drawText htext⟩
  iterate 4 exact fun w hw => clipped_screenFill hw
  exact clipped_drawAll (fun row ws hws => clipped_drawAll (fun column ws hws =>
    clipped_readPixel hws) hws) hcontent

theorem clipped_drawExternal {surface : ExternalSurface}
    (h : c.drawExternal surface = .ok writes) : ∀ w ∈ writes, Clipped c.framebuffer w :=
  clipped_drawAll (fun _ _ hws => clipped_drawAll (fun _ _ hws => clipped_readPixel hws) hws) h

/-- **What is drawn** is on the screen. -/
theorem clipped_scene (h : c.scene glyph = .ok writes) : ∀ w ∈ writes, Clipped c.framebuffer w := by
  simp only [Compositor.scene, bind_eq_ok, pure_eq_ok] at h
  obtain ⟨windows, hwindows, external, hexternal, rfl⟩ := h
  simp only [Compositor.drawDesktopBar, mem_append, or_imp, forall_and]
  refine ⟨⟨⟨?_, ?_, ?_⟩, ?_⟩, ?_⟩
  iterate 3 exact fun w hw => clipped_screenFill hw
  · refine clipped_drawAll (fun index ws hws => ?_) hwindows
    split at hws
    · cases hws
      exact fun w hw => absurd hw not_mem_nil
    · exact clipped_drawWindow hws
  · exact clipped_drawAll (fun _ _ hws => clipped_drawExternal hws) hexternal

/-! ### The arrow -/

/-- A pixel of the screen is written that is in the square of the cursor. -/
def InSquare (c : Compositor) (w : Write) : Prop :=
  ∃ x y, (max c.pointerX 0 ≤ x ∧
    x < min (c.pointerX + c.theme.cursorSize) c.framebuffer.screenWidth) ∧
    (max c.pointerY 0 ≤ y ∧ y < min (c.pointerY + c.theme.cursorSize) c.framebuffer.screenHeight) ∧
    w.1 = backIndex x y

theorem InSquare.clipped (h : InSquare c w) : Clipped c.framebuffer w := by
  obtain ⟨x, y, hx, hy, hw⟩ := h
  exact ⟨x, y, ⟨(le_max_right _ _).trans hx.1, hx.2.trans_le (min_le_right _ _)⟩,
    ⟨(le_max_right _ _).trans hy.1, hy.2.trans_le (min_le_right _ _)⟩, hw⟩

/-- **The arrow** is in the square. -/
theorem inSquare_drawArrow (h : c.drawArrow = .ok writes) : ∀ w ∈ writes, InSquare c w := by
  simp only [Compositor.drawArrow, bind_eq_ok, pure_eq_ok] at h
  obtain ⟨outline, houtline, k, hk, body, hbody, rfl⟩ := h
  obtain ⟨-, rfl⟩ := i32_eq_ok.mp hk
  have hline : ∀ {color : Pixel} {row column : ℤ} {ws : List Write},
      (do
        return c.framebuffer.screenPixel (← i32 (c.pointerX + column)) (← i32 (c.pointerY + row))
          color) = .ok ws →
      0 ≤ column → column < c.theme.cursorSize → 0 ≤ row → row < c.theme.cursorSize →
      ∀ w ∈ ws, InSquare c w := by
    intro color row column ws hws h₁ h₂ h₃ h₄ w hw
    obtain ⟨_, hx, hws⟩ := bind_eq_ok.mp hws
    obtain ⟨_, hy, hws⟩ := bind_eq_ok.mp hws
    obtain ⟨-, rfl⟩ := i32_eq_ok.mp hx
    obtain ⟨-, rfl⟩ := i32_eq_ok.mp hy
    rw [← pure_eq_ok.mp hws] at hw
    obtain ⟨hx, hy, rfl⟩ := mem_screenPixel.mp hw
    exact ⟨_, _, ⟨max_le (by omega) hx.1, lt_min (by omega) hx.2⟩,
      ⟨max_le (by omega) hy.1, lt_min (by omega) hy.2⟩, rfl⟩
  intro w hw
  rcases mem_append.mp hw with hw | hw
  · obtain ⟨row, hrow, ws, hws, hw⟩ := mem_drawAll houtline hw
    obtain ⟨column, hcolumn, ws, hws, hw⟩ := mem_drawAll hws hw
    rw [mem_span] at hrow hcolumn
    exact hline hws (by omega) (by omega) (by omega) (by omega) w hw
  · obtain ⟨row, hrow, ws, hws, hw⟩ := mem_drawAll hbody hw
    obtain ⟨column, hcolumn, ws, hws, hw⟩ := mem_drawAll hws hw
    rw [mem_span] at hrow hcolumn
    exact hline hws (by omega) (by omega) (by omega) (by omega) w hw

theorem drawCursorAndSave_eq_ok {c' : Compositor} (h : c.drawCursorAndSave = .ok c') :
    let left := max c.pointerX 0
    let top := max c.pointerY 0
    let right := min (c.pointerX + c.theme.cursorSize) c.framebuffer.screenWidth
    let bottom := min (c.pointerY + c.theme.cursorSize) c.framebuffer.screenHeight
    ∃ saves arrow, c.saveBehind left top right bottom = .ok saves ∧ c.drawArrow = .ok arrow ∧
      (∀ w ∈ saves, w.1 < maxCursorWidth * maxCursorHeight) ∧
      (∀ w ∈ arrow, w.1 < screenPixels) ∧
      c' = { c with
        backbuffer := paint arrow c.backbuffer
        cursorSaved := paint saves c.cursorSaved
        cursorRect := ⟨left, top, right - left, bottom - top⟩
        cursorPresent := true } := by
  simp only [Compositor.drawCursorAndSave, bind_eq_ok, pure_eq_ok, i32_eq_ok, writeAll_eq_ok] at h
  obtain ⟨_, ⟨-, rfl⟩, _, ⟨-, rfl⟩, saves, hsaves, _, ⟨hlt, rfl⟩, _, ⟨-, rfl⟩, _, ⟨-, rfl⟩, arrow,
    harrow, _, ⟨hinside, rfl⟩, rfl⟩ := h
  exact ⟨saves, arrow, hsaves, harrow, hlt, hinside, rfl⟩

end Clipped

end ImagineOS.Display
