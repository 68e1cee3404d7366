import ImagineOS.Display.Bounds
import Mathlib.Data.List.TakeWhile

/-!
# Display: the run loop

An iteration handles events, looks at the surfaces, and then draws everything, or only the cursor,
or nothing. Whether it draws enough is a question about what the back buffer is: a picture, with the
arrow over it, and with what is behind the arrow saved (`Drawn`). A full redraw and a redraw of the
cursor both leave the picture of the windows and surfaces there are (`Shown`), and a full redraw of
what is `Shown` changes nothing that is seen.
-/

namespace ImagineOS.Display

open List Nat

/-! ### Events -/

/-- `InputEvent`. The kernel keeps the pointer from going below zero. -/
inductive InputEvent
  | key (key : ℕ)
  | mouseMove (x y : ℕ)
  | mouseButton (button : ℕ) (pressed : Bool)
  | other
  deriving DecidableEq

namespace Compositor

def externalAt (c : Compositor) (x y : ℤ) : Except Stop (Option ℕ) := do
  let entry ← c.external.findM? fun entry => do
    if ← Window.within x entry.x [.ok entry.width] then
      Window.within y entry.y [.ok entry.height]
    else return false
  return entry.map (·.id)

def externalOrigin (c : Compositor) (id : ℕ) : ℤ × ℤ :=
  ((c.external.find? fun entry => entry.id == id).map fun entry => (entry.x, entry.y)).getD (0, 0)

/-- The coordinates of an event that is sent to the surface under the pointer. -/
def localPoint (c : Compositor) (id : ℕ) : Except Stop (ℤ × ℤ) := do
  let origin := c.externalOrigin id
  return (← i32 (c.pointerX - origin.1), ← i32 (c.pointerY - origin.2))

/-- An event is sent to the surface under the pointer, if there is one. -/
def forward (c : Compositor) : Except Stop (Option (ℤ × ℤ)) := do
  match ← c.externalAt c.pointerX c.pointerY with
  | none => return none
  | some id => return some (← c.localPoint id)

/-- A window is dragged by its title. -/
def grab (c : Compositor) (index : ℕ) : Except Stop Compositor :=
  match c.windows[index]? with
  | none => .ok c
  | some window => do
    if ← window.holdsTitle c.pointerX c.pointerY then
      return { c with
        dragging := some index
        dragOffsetX := ← i32 (c.pointerX - window.x)
        dragOffsetY := ← i32 (c.pointerY - window.y) }
    else return c

def beginDragOrFocus (c : Compositor) : Except Stop Compositor := do
  let selected ← (List.range c.windows.length).reverse.findM? fun index =>
    match c.windows[index]? with
    | none => return false
    | some window => window.contains c.pointerX c.pointerY
  match selected with
  | none => return c
  | some index =>
    let c ← grab { c with focused := index } index
    return { c with
      windows := c.windows.modify index fun window => { window with z := c.frameNumber }
      dirty := true }

/-- The window that is dragged follows the pointer. -/
def drag (c : Compositor) : Except Stop Compositor :=
  match c.dragging with
  | none => .ok c
  | some index =>
    match c.windows[index]? with
    | none => .ok c
    | some window => do
      let window ← window.moveTo (← i32 (c.pointerX - c.dragOffsetX))
        (← i32 (c.pointerY - c.dragOffsetY)) c.framebuffer.screenWidth c.framebuffer.screenHeight
      return { c with windows := c.windows.set index window }

/-- The left button goes down. -/
def press (c : Compositor) : Except Stop Compositor := do
  match ← c.forward with
  | some _ => return { c with dirty := true }
  | none =>
    let c ← c.beginDragOrFocus
    return { c with dirty := true }

/-- The left button goes up. -/
def release (c : Compositor) : Except Stop Compositor := do
  let c := { c with
    dragging := none
    dirty := true }
  let _ ← c.forward
  return c

/-- The left button is held, or it is not. -/
def button (c : Compositor) (pressed : Bool) : Except Stop Compositor :=
  if pressed && !c.lastLeft then c.press
  else if !pressed && c.lastLeft then c.release
  else .ok c

/-- The pointer is at a new place. -/
def moveTo (c : Compositor) (x y : ℤ) : Compositor :=
  { c with
    pointerX := x
    pointerY := y
    cursorDirty := c.cursorDirty || c.pointerX ≠ x || c.pointerY ≠ y }

/-- A round of `poll_events`. -/
def handleEvent (c : Compositor) : InputEvent → Except Stop Compositor
  | .key key => if key = 113 ∨ key = 81 ∨ key = 0xf0007 then .error .exit else .ok c
  | .mouseMove x y => do
    let c := c.moveTo x y
    let _ ← c.forward
    c.drag
  | .mouseButton button pressed =>
    if button ≠ 1 then .ok c
    else do
      let c ← c.button pressed
      return { c with lastLeft := pressed }
  | .other => .ok c

def pollEvents (events : List InputEvent) (c : Compositor) : Except Stop Compositor :=
  (events.take 64).foldlM handleEvent c

/-! ### Surfaces -/

def externalPosition (c : Compositor) (index : ℕ) (snapshot : Snapshot) : ℤ × ℤ :=
  if index = 0 then (0, 0)
  else
    let slot : ℕ := (index - 1) % 6
    (min (40 + slot * 40) (max (c.framebuffer.screenWidth - snapshot.width) 0), 64 + slot * 32)

/-- The entries that are still there take what the snapshots say. -/
def updateExternal (snapshots : List Snapshot) (c : Compositor) : Compositor :=
  { c with
    external := c.external.filterMap fun entry =>
      (snapshots.find? fun snapshot => snapshot.id == entry.id).map fun snapshot =>
        { entry with toSnapshot := snapshot }
    dirty := c.dirty || c.external.any fun entry =>
      (snapshots.find? fun snapshot => snapshot.id == entry.id).isNone }

/-- A snapshot is added that is not known yet. -/
def addExternal (c : Compositor) (snapshot : Snapshot) : Compositor :=
  if c.external.any fun entry => entry.id == snapshot.id then c
  else if maxSurfaces ≤ c.external.length then c
  else
    let position := c.externalPosition c.external.length snapshot
    { c with
      external := c.external ++ [{ snapshot with
        x := position.1
        y := position.2 }]
      dirty := true }

def syncExternal (snapshots : List Snapshot) (c : Compositor) : Compositor :=
  snapshots.foldl addExternal (c.updateExternal snapshots)

end Compositor

/-! ### The loop -/

/-- What happens in an iteration: the events, the surfaces and what their buffers hold. -/
structure Round where
  events : List InputEvent
  snapshots : List Snapshot
  memory : ℕ → ℕ → Pixel

namespace Compositor

/-- What an iteration has changed before it draws. -/
def gather (round : Round) (c : Compositor) : Except Stop Compositor := do
  let c ← c.pollEvents round.events
  return { c.syncExternal round.snapshots with memory := round.memory }

section Font

variable (glyph : Char → ℕ → BitVec 8)

/-- What an iteration draws. -/
def redraw (c : Compositor) : Except Stop Compositor :=
  if c.dirty then do
    let c ← c.compose glyph
    return { c with dirty := false }
  else if c.cursorDirty then do
    let c ← c.updateCursorOnly glyph
    return { c with cursorDirty := false }
  else .ok c

/-- What `run` does before the loop. -/
def start (c : Compositor) : Except Stop Compositor := do
  let c ← c.compose glyph
  return { c with dirty := false }

/-- An iteration of `run`. -/
def iterate (round : Round) (c : Compositor) : Except Stop Compositor := do
  let c ← c.gather round
  let c ← c.redraw glyph
  return { c with frameNumber := c.frameNumber + 1 }

end Font

end Compositor

/-! ### What is changed before a redraw -/

/-- What only a drawing changes. -/
structure Canvas where
  framebuffer : Framebuffer
  theme : WindowTheme
  screen : ℕ → Pixel
  backbuffer : ℕ → Pixel
  cursorRect : Rect
  cursorPresent : Bool
  cursorSaved : ℕ → Pixel

/-- What only a drawing changes. -/
def Compositor.canvas (c : Compositor) : Canvas where
  framebuffer := c.framebuffer
  theme := c.theme
  screen := c.screen
  backbuffer := c.backbuffer
  cursorRect := c.cursorRect
  cursorPresent := c.cursorPresent
  cursorSaved := c.cursorSaved

/-- Nothing is drawn, and the flags say what has to be drawn: the pointer, or the focus. -/
structure Gathers (c c' : Compositor) : Prop where
  canvas : c'.canvas = c.canvas
  nonneg : 0 ≤ c.pointerX ∧ 0 ≤ c.pointerY → 0 ≤ c'.pointerX ∧ 0 ≤ c'.pointerY
  pointer : c'.cursorDirty = false →
    c.cursorDirty = false ∧ c'.pointerX = c.pointerX ∧ c'.pointerY = c.pointerY
  focused : c'.dirty = false → c.dirty = false ∧ c'.focused = c.focused

section Gathers

variable {c c' d : Compositor}

theorem Gathers.refl (c : Compositor) : Gathers c c :=
  ⟨rfl, id, fun h => ⟨h, rfl, rfl⟩, fun h => ⟨h, rfl⟩⟩

theorem Gathers.trans (h : Gathers c c') (h' : Gathers c' d) : Gathers c d where
  canvas := h'.canvas.trans h.canvas
  nonneg hn := h'.nonneg (h.nonneg hn)
  pointer hd := by
    obtain ⟨hd, hx, hy⟩ := h'.pointer hd
    obtain ⟨hd, hx', hy'⟩ := h.pointer hd
    exact ⟨hd, hx.trans hx', hy.trans hy'⟩
  focused hd := by
    obtain ⟨hd, hf⟩ := h'.focused hd
    obtain ⟨hd, hf'⟩ := h.focused hd
    exact ⟨hd, hf.trans hf'⟩

theorem Gathers.of_dirty (hcanvas : c'.canvas = c.canvas) (hx : c'.pointerX = c.pointerX)
    (hy : c'.pointerY = c.pointerY) (hcursor : c'.cursorDirty = c.cursorDirty)
    (hdirty : c'.dirty = true) : Gathers c c' where
  canvas := hcanvas
  nonneg hn := by rw [hx, hy]; exact hn
  pointer hd := ⟨hcursor ▸ hd, hx, hy⟩
  focused hd := by rw [hdirty] at hd; cases hd

theorem gathers_drag (h : c.drag = .ok c') : Gathers c c' := by
  rw [Compositor.drag] at h
  split at h
  · cases h
    exact .refl c
  split at h
  · cases h
    exact .refl c
  · simp only [bind_eq_ok, pure_eq_ok] at h
    obtain ⟨_, -, _, -, window, -, rfl⟩ := h
    exact ⟨rfl, id, fun h => ⟨h, rfl, rfl⟩, fun h => ⟨h, rfl⟩⟩

theorem gathers_grab {index : ℕ} (h : c.grab index = .ok c') : Gathers c c' := by
  rw [Compositor.grab] at h
  split at h
  · cases h
    exact .refl c
  · obtain ⟨holds, -, h⟩ := bind_eq_ok.mp h
    split at h
    · simp only [bind_eq_ok, pure_eq_ok] at h
      obtain ⟨_, -, _, -, rfl⟩ := h
      exact ⟨rfl, id, fun h => ⟨h, rfl, rfl⟩, fun h => ⟨h, rfl⟩⟩
    · obtain rfl := pure_eq_ok.mp h
      exact .refl _

theorem gathers_beginDragOrFocus (h : c.beginDragOrFocus = .ok c') : Gathers c c' := by
  rw [Compositor.beginDragOrFocus] at h
  obtain ⟨selected, -, h⟩ := bind_eq_ok.mp h
  cases selected with
  | none =>
    cases h
    exact .refl c
  | some index =>
    obtain ⟨grabbed, hgrab, h⟩ := bind_eq_ok.mp h
    obtain rfl := pure_eq_ok.mp h
    have hg := gathers_grab hgrab
    exact ⟨hg.canvas, hg.nonneg, hg.pointer, fun hd => by cases hd⟩

theorem gathers_press (h : c.press = .ok c') : Gathers c c' := by
  rw [Compositor.press] at h
  obtain ⟨surface, -, h⟩ := bind_eq_ok.mp h
  cases surface with
  | some point =>
    obtain rfl := pure_eq_ok.mp h
    exact .of_dirty rfl rfl rfl rfl rfl
  | none =>
    obtain ⟨begun, hbegun, h⟩ := bind_eq_ok.mp h
    obtain rfl := pure_eq_ok.mp h
    exact (gathers_beginDragOrFocus hbegun).trans (.of_dirty rfl rfl rfl rfl rfl)

theorem gathers_release (h : c.release = .ok c') : Gathers c c' := by
  rw [Compositor.release] at h
  obtain ⟨_, -, h⟩ := bind_eq_ok.mp h
  obtain rfl := pure_eq_ok.mp h
  exact .of_dirty rfl rfl rfl rfl rfl

theorem gathers_button {pressed : Bool} (h : c.button pressed = .ok c') : Gathers c c' := by
  rw [Compositor.button] at h
  split at h
  · exact gathers_press h
  split at h
  · exact gathers_release h
  · cases h
    exact .refl c

theorem gathers_moveTo (c : Compositor) (x y : ℕ) : Gathers c (c.moveTo x y) where
  canvas := rfl
  nonneg _ := ⟨Int.natCast_nonneg x, Int.natCast_nonneg y⟩
  pointer hd := by
    simp only [Compositor.moveTo, Bool.or_eq_false_iff, decide_eq_false_iff_not, not_not] at hd
    exact ⟨hd.1.1, hd.1.2.symm, hd.2.symm⟩
  focused hd := ⟨hd, rfl⟩

theorem gathers_handleEvent {event : InputEvent} (h : c.handleEvent event = .ok c') :
    Gathers c c' := by
  cases event with
  | key key =>
    rw [Compositor.handleEvent] at h
    split at h
    · cases h
    · cases h
      exact .refl c
  | mouseMove x y =>
    rw [Compositor.handleEvent] at h
    obtain ⟨_, -, h⟩ := bind_eq_ok.mp h
    exact (gathers_moveTo c x y).trans (gathers_drag h)
  | mouseButton button pressed =>
    rw [Compositor.handleEvent] at h
    split at h
    · cases h
      exact .refl c
    · obtain ⟨changed, hchanged, h⟩ := bind_eq_ok.mp h
      obtain rfl := pure_eq_ok.mp h
      exact (gathers_button hchanged).trans ⟨rfl, id, fun h => ⟨h, rfl, rfl⟩, fun h => ⟨h, rfl⟩⟩
  | other =>
    cases h
    exact .refl c

theorem gathers_pollEvents {events : List InputEvent} (h : c.pollEvents events = .ok c') :
    Gathers c c' := by
  rw [Compositor.pollEvents] at h
  generalize events.take 64 = events at h
  induction events generalizing c with
  | nil =>
    obtain rfl := pure_eq_ok.mp h
    exact .refl _
  | cons event events ih =>
    rw [foldlM_cons] at h
    obtain ⟨next, hnext, h⟩ := bind_eq_ok.mp h
    exact (gathers_handleEvent hnext).trans (ih h)

theorem gathers_updateExternal (snapshots : List Snapshot) (c : Compositor) :
    Gathers c (c.updateExternal snapshots) :=
  ⟨rfl, id, fun h => ⟨h, rfl, rfl⟩, fun h => ⟨(Bool.or_eq_false_iff.mp h).1, rfl⟩⟩

theorem gathers_addExternal (c : Compositor) (snapshot : Snapshot) :
    Gathers c (c.addExternal snapshot) := by
  rw [Compositor.addExternal]
  split
  · exact .refl c
  split
  · exact .refl c
  · exact .of_dirty rfl rfl rfl rfl rfl

theorem gathers_syncExternal (snapshots : List Snapshot) (c : Compositor) :
    Gathers c (c.syncExternal snapshots) := by
  have hfold : ∀ (added : List Snapshot) (c : Compositor),
      Gathers c (added.foldl Compositor.addExternal c) := by
    intro added
    induction added with
    | nil => exact .refl
    | cons snapshot added ih => exact fun c => (gathers_addExternal c snapshot).trans (ih _)
  exact (gathers_updateExternal snapshots c).trans (hfold _ _)

/-- **Before a redraw**, nothing is drawn. -/
theorem gathers_gather {round : Round} (h : c.gather round = .ok c') : Gathers c c' := by
  rw [Compositor.gather] at h
  obtain ⟨polled, hpolled, h⟩ := bind_eq_ok.mp h
  obtain rfl := pure_eq_ok.mp h
  exact ((gathers_pollEvents hpolled).trans (gathers_syncExternal _ _)).trans
    ⟨rfl, id, fun h => ⟨h, rfl, rfl⟩, fun h => ⟨h, rfl⟩⟩

end Gathers

/-! ### What was drawn -/

/-- A screen that the back buffer can hold, and a cursor that is not larger than what is saved. -/
structure Suited (c : Compositor) : Prop where
  width : 0 < c.framebuffer.width ∧ c.framebuffer.width ≤ maxScreenWidth
  height : 0 < c.framebuffer.height ∧ c.framebuffer.height ≤ maxScreenHeight
  pitch : c.framebuffer.width ≤ c.framebuffer.pitchWords
  cursor : 1 ≤ c.theme.cursorSize ∧ c.theme.cursorSize ≤ maxCursorWidth

/-- A pixel is in a rectangle. -/
def Rect.Has (r : Rect) (x y : ℤ) : Prop :=
  (r.x ≤ x ∧ x < r.x + r.width) ∧ (r.y ≤ y ∧ y < r.y + r.height)

/-- The screen shows the back buffer. -/
def Shows (c : Compositor) (x y : ℤ) : Prop :=
  c.screen (y.toNat * c.framebuffer.pitchWords + x.toNat) = c.backbuffer (backIndex x y)

/-- The back buffer is a picture with the cursor over it, and what is behind the cursor is saved. -/
structure Drawn (c : Compositor) (picture : ℕ → Pixel) : Prop where
  present : c.cursorPresent = true
  rect : ∃ x y, 0 ≤ x ∧ 0 ≤ y ∧ c.cursorRect = cursorRectAt c.framebuffer c.theme.cursorSize x y
  outside : ∀ i, (∀ x y, c.cursorRect.Has x y → i ≠ backIndex x y) → c.backbuffer i = picture i
  saved : ∀ x y, c.cursorRect.Has x y →
    c.cursorSaved ((y - c.cursorRect.y).toNat * maxCursorWidth + (x - c.cursorRect.x).toNat) =
      picture (backIndex x y)
  shows : ∀ x y, (0 ≤ x ∧ x < c.framebuffer.screenWidth) →
    (0 ≤ y ∧ y < c.framebuffer.screenHeight) →
    Shows c x y

section Drawn

variable {c d : Compositor} {picture : ℕ → Pixel} {x y : ℤ} {rect : Rect}

theorem Suited.screenWidth (hs : Suited c) : c.framebuffer.screenWidth = c.framebuffer.width := by
  have hle := hs.width.2
  rw [maxScreenWidth] at hle
  exact asI32_of_lt (by omega)

theorem Suited.screenHeight (hs : Suited c) :
    c.framebuffer.screenHeight = c.framebuffer.height := by
  have hle := hs.height.2
  rw [maxScreenHeight] at hle
  exact asI32_of_lt (by omega)

theorem Suited.screenFits (hs : Suited c) : ScreenFits c.framebuffer := by
  have hw := hs.width.2
  have hh := hs.height.2
  refine Or.inr (Or.inr ?_)
  rw [hs.screenWidth, hs.screenHeight, screenPixels, maxScreenWidth, maxScreenHeight] at *
  omega

theorem has_cursorRectAt {fb : Framebuffer} {size px py : ℤ} :
    (cursorRectAt fb size px py).Has x y ↔ (px ≤ x ∧ x < min (px + size) fb.screenWidth) ∧
      (py ≤ y ∧ y < min (py + size) fb.screenHeight) := by
  simp only [Rect.Has, cursorRectAt, add_sub_cancel]

theorem decode_slot {m n k : ℕ} (h : n < k) : (m * k + n) % k = n ∧ (m * k + n) / k = m := by
  have hpos : 0 < k := by omega
  rw [mul_comm, mul_add_mod, mod_eq_of_lt h, mul_add_div hpos, div_eq_of_lt h,
    add_zero]
  exact ⟨rfl, rfl⟩

theorem drawn_outside (hx : 0 ≤ c.pointerX) (hy : 0 ≤ c.pointerY) {arrow : List Write}
    (h : c.drawArrow = .ok arrow) {i : ℕ}
    (hi : ∀ x y, (cursorRectAt c.framebuffer c.theme.cursorSize c.pointerX c.pointerY).Has x y →
      i ≠ backIndex x y) : paint arrow picture i = picture i := by
  refine paint_of_not_mem fun hmem => ?_
  obtain ⟨w, hw, hwi⟩ := List.mem_map.mp hmem
  obtain ⟨x, y, hx', hy', hindex⟩ := inSquare_drawArrow h w hw
  rw [max_eq_left hx] at hx'
  rw [max_eq_left hy] at hy'
  exact hi x y (has_cursorRectAt.mpr ⟨hx', hy'⟩) (hwi ▸ hindex)

theorem toNat_sub_lt {a size n : ℤ} {k : ℕ} (h : a ≤ x) (hlt : x < min (a + size) n)
    (hsize : size ≤ k) : (x - a).toNat < k := by
  omega

/-- What is behind the cursor is saved, in lines of 32 pixels. -/
theorem saved_behind (hs : Suited c) {saves : List Write} (h : c.saveBehind c.pointerX c.pointerY
      (min (c.pointerX + c.theme.cursorSize) c.framebuffer.screenWidth)
      (min (c.pointerY + c.theme.cursorSize) c.framebuffer.screenHeight) = .ok saves)
    (hhas : (cursorRectAt c.framebuffer c.theme.cursorSize c.pointerX c.pointerY).Has x y) :
    paint saves c.cursorSaved ((y - c.pointerY).toNat * maxCursorWidth + (x - c.pointerX).toNat) =
      c.backbuffer (backIndex x y) := by
  rw [has_cursorRectAt] at hhas
  -- The picture of the lines, by their slots.
  obtain ⟨lines, hslot⟩ : ∃ lines : ℕ → Pixel, ∀ x y, (c.pointerX ≤ x ∧
      x < min (c.pointerX + c.theme.cursorSize) c.framebuffer.screenWidth) → c.pointerY ≤ y →
      lines ((y - c.pointerY).toNat * maxCursorWidth + (x - c.pointerX).toNat) =
        c.backbuffer (backIndex x y) := by
    refine ⟨fun i => c.backbuffer (backIndex (c.pointerX + (i % maxCursorWidth : ℕ))
      (c.pointerY + (i / maxCursorWidth : ℕ))), fun x y hx hy => ?_⟩
    obtain ⟨hmod, hdiv⟩ := decode_slot (m := (y - c.pointerY).toNat)
      (toNat_sub_lt hx.1 hx.2 hs.cursor.2)
    dsimp only
    rw [hmod, hdiv, Int.toNat_of_nonneg (Int.sub_nonneg_of_le hx.1),
      Int.toNat_of_nonneg (Int.sub_nonneg_of_le hy), add_sub_cancel, add_sub_cancel]
  rw [← hslot x y hhas.1 hhas.2.1]
  refine paint_picture (fun w hw => ?_) (List.mem_map.mpr
    ⟨_, (mem_saveBehind h).mpr ⟨x, y, hhas.1, hhas.2, rfl⟩, rfl⟩)
  obtain ⟨x, y, hx, hy, rfl⟩ := (mem_saveBehind h).mp hw
  exact (hslot x y hx hy.1).symm

theorem drawn_cursor (hs : Suited c) (hx : 0 ≤ c.pointerX) (hy : 0 ≤ c.pointerY)
    (h : c.drawCursorAndSave = .ok d) :
    (∀ i, (∀ x y, d.cursorRect.Has x y → i ≠ backIndex x y) → d.backbuffer i = c.backbuffer i) ∧
      ∀ x y, d.cursorRect.Has x y →
        d.cursorSaved ((y - d.cursorRect.y).toNat * maxCursorWidth + (x - d.cursorRect.x).toNat) =
          c.backbuffer (backIndex x y) := by
  have hrect := drawCursorAndSave_cursorRect hx hy h
  obtain ⟨saves, arrow, hsaves, harrow, -, -, hd⟩ := drawCursorAndSave_eq_ok h
  rw [max_eq_left hx, max_eq_left hy] at hsaves
  have hback : d.backbuffer = paint arrow c.backbuffer := by rw [hd]
  have hsaved : d.cursorSaved = paint saves c.cursorSaved := by rw [hd]
  rw [hback, hsaved, hrect]
  exact ⟨fun i hi => drawn_outside hx hy harrow hi, fun x y hhas => saved_behind hs hsaves hhas⟩

theorem copyRow_eq {fb : Framebuffer} {source : ℕ → Pixel} {count column row : ℕ}
    (hrow : row < fb.height) (hcolumn : column + count ≤ fb.width) :
    fb.copyRow source count column row =
      (List.range count).map fun k => (row * fb.pitchWords + column + k, source k) := by
  rw [Framebuffer.copyRow, if_neg (by omega), takeWhile_eq_self_iff.mpr]
  intro k hk
  rw [mem_range] at hk
  exact decide_eq_true (by omega)

/-- The lines of the back buffer that are copied to the screen. -/
theorem mem_copyRows (hs : Suited c) {left top right bottom : ℤ} (hleft : 0 ≤ left) (htop : 0 ≤ top)
    (hlt : left < right) (hright : right ≤ c.framebuffer.screenWidth)
    (hbottom : bottom ≤ c.framebuffer.screenHeight) {writes : List Write} {w : Write}
    (h : c.copyRows left top right bottom = .ok writes) :
    w ∈ writes ↔ ∃ x y, (left ≤ x ∧ x < right) ∧ (top ≤ y ∧ y < bottom) ∧
      w = (y.toNat * c.framebuffer.pitchWords + x.toNat, c.backbuffer (backIndex x y)) := by
  have hwidth := hs.screenWidth
  have hheight := hs.screenHeight
  rw [Compositor.copyRows] at h
  have hrow : ∀ row, (top ≤ row ∧ row < bottom) → ∀ {ws : List Write},
      (if backIndex left row + (right - left).toNat ≤ screenPixels then
        Except.ok (c.framebuffer.copyRow (fun k => c.backbuffer (backIndex left row + k))
          (right - left).toNat left.toNat row.toNat)
      else Except.error Stop.outside) = .ok ws → (w ∈ ws ↔ ∃ x, (left ≤ x ∧ x < right) ∧
        w = (row.toNat * c.framebuffer.pitchWords + x.toNat, c.backbuffer (backIndex x row))) := by
    intro row hrow ws hws
    split at hws
    · obtain rfl := Except.ok.inj hws
      rw [copyRow_eq (by omega) (by omega), List.mem_map]
      constructor
      · rintro ⟨k, hk, rfl⟩
        rw [mem_range] at hk
        refine ⟨left + k, ⟨by omega, by omega⟩, ?_⟩
        have hsum : (left + k).toNat = left.toNat + k := by omega
        simp only [backIndex, hsum, add_assoc]
      · rintro ⟨x, hx, rfl⟩
        refine ⟨(x - left).toNat, mem_range.mpr (by omega), ?_⟩
        have hsum : x.toNat = left.toNat + (x - left).toNat := by omega
        simp only [backIndex, hsum, add_assoc]
    · cases hws
  constructor
  · intro hw
    obtain ⟨row, hmem, ws, hws, hw⟩ := mem_drawAll h hw
    rw [mem_span] at hmem
    obtain ⟨x, hx, hw⟩ := (hrow row hmem hws).mp hw
    exact ⟨x, row, hx, hmem, hw⟩
  · rintro ⟨x, y, hx, hy, hw⟩
    obtain ⟨ws, hws⟩ := ok_drawAll.mp ⟨writes, h⟩ y (mem_span.mpr hy)
    exact mem_of_drawAll h (mem_span.mpr hy) hws ((hrow y hy hws).mpr ⟨x, hx, hw⟩)

/-- **A rectangle is shown**, so the screen shows everything if it did outside of the rectangle. -/
theorem shows_presentRect (hs : Suited c) (h : c.presentRect rect = .ok d)
    (hshows : ∀ x y, (0 ≤ x ∧ x < c.framebuffer.screenWidth) →
      (0 ≤ y ∧ y < c.framebuffer.screenHeight) → rect.Has x y ∨ Shows c x y)
    (hx : 0 ≤ x ∧ x < c.framebuffer.screenWidth) (hy : 0 ≤ y ∧ y < c.framebuffer.screenHeight) :
    Shows d x y := by
  rw [Compositor.presentRect] at h
  split at h
  · rename_i hempty
    cases h
    rw [isEmpty_iff] at hempty
    refine (hshows x y hx hy).resolve_left fun hhas => ?_
    obtain ⟨⟨hleft, hright⟩, htop, hbottom⟩ := hhas
    omega
  · obtain ⟨right, hright, h⟩ := bind_eq_ok.mp h
    obtain ⟨bottom, hbottom, h⟩ := bind_eq_ok.mp h
    obtain ⟨-, rfl⟩ := i32_eq_ok.mp hright
    obtain ⟨-, rfl⟩ := i32_eq_ok.mp hbottom
    dsimp only at h
    split at h
    · rename_i hempty
      cases h
      refine (hshows x y hx hy).resolve_left fun hhas => ?_
      obtain ⟨⟨hleft, hright⟩, htop, hbottom⟩ := hhas
      rcases hempty with hempty | hempty
      · exact absurd (lt_min hright hx.2) (not_lt.mpr (hempty.trans (max_le hleft hx.1)))
      · exact absurd (lt_min hbottom hy.2) (not_lt.mpr (hempty.trans (max_le htop hy.1)))
    · rename_i hsome
      rw [not_or, not_le, not_le] at hsome
      obtain ⟨writes, hwrites, h⟩ := bind_eq_ok.mp h
      obtain rfl := pure_eq_ok.mp h
      have hmem := fun {w} => mem_copyRows (w := w) hs (le_max_right rect.x 0)
        (le_max_right rect.y 0) hsome.1 (min_le_right (rect.x + rect.width) _)
        (min_le_right (rect.y + rect.height) _) hwrites
      -- The picture of the screen, by its lines.
      obtain ⟨lines, hslot⟩ : ∃ lines : ℕ → Pixel, ∀ x y, (0 ≤ x ∧ x < c.framebuffer.screenWidth) →
          0 ≤ y → lines (y.toNat * c.framebuffer.pitchWords + x.toNat) =
            c.backbuffer (backIndex x y) := by
        refine ⟨fun i => c.backbuffer (backIndex (i % c.framebuffer.pitchWords : ℕ)
          (i / c.framebuffer.pitchWords : ℕ)), fun x y hx hy => ?_⟩
        have hlt : x.toNat < c.framebuffer.pitchWords := by
          have hwidth := hs.screenWidth
          have hpitch := hs.pitch
          omega
        obtain ⟨hmod, hdiv⟩ := decode_slot (m := y.toNat) hlt
        dsimp only
        rw [hmod, hdiv, Int.toNat_of_nonneg hx.1, Int.toNat_of_nonneg hy]
      rw [Shows]
      dsimp only
      by_cases hwritten : y.toNat * c.framebuffer.pitchWords + x.toNat ∈ writes.map Prod.fst
      · rw [← hslot x y hx hy.1]
        refine paint_picture (fun w hw => ?_) hwritten
        obtain ⟨x, y, hx, hy, rfl⟩ := hmem.mp hw
        exact (hslot x y ⟨(le_max_right _ _).trans hx.1, hx.2.trans_le (min_le_right _ _)⟩
          ((le_max_right _ _).trans hy.1)).symm
      · rw [paint_of_not_mem hwritten]
        refine (hshows x y hx hy).resolve_left fun hhas => hwritten ?_
        exact List.mem_map.mpr ⟨_, hmem.mpr ⟨x, y, ⟨max_le hhas.1.1 hx.1, lt_min hhas.1.2 hx.2⟩,
          ⟨max_le hhas.2.1 hy.1, lt_min hhas.2.2 hy.2⟩, rfl⟩, rfl⟩

end Drawn

/-- The back buffer and the screen are those that a full redraw would make. -/
structure Shown (glyph : Char → ℕ → BitVec 8) (c : Compositor) (picture : ℕ → Pixel) : Prop
    extends Drawn c picture where
  nonneg : 0 ≤ c.pointerX ∧ 0 ≤ c.pointerY
  fits : CursorFits c
  scene : ∃ writes, c.scene glyph = .ok writes ∧ paint writes picture = picture
  arrow : ∃ writes, c.drawArrow = .ok writes ∧ c.backbuffer = paint writes picture

/-- What is put back is what was saved, although lines are shorter than those that were saved. -/
def Restores (c : Compositor) : Prop :=
  ∀ row < c.cursorRect.height.toNat, ∀ column < c.cursorRect.width.toNat,
    c.cursorSaved (row * c.cursorRect.width.toNat + column) =
      c.cursorSaved (row * maxCursorWidth + column)

/-- A full redraw would change nothing that is seen. -/
def AsComposed (glyph : Char → ℕ → BitVec 8) (c : Compositor) : Prop :=
  ∃ c', c.compose glyph = .ok c' ∧ c'.backbuffer = c.backbuffer ∧ c'.screen = c.screen


section Shown

variable {c d : Compositor} {picture : ℕ → Pixel} {glyph : Char → ℕ → BitVec 8} {x y : ℤ}
    {rect : Rect}

theorem presentRect_same (hs : Suited c) (h : c.presentRect rect = .ok d)
    (hshows : ∀ x y, (0 ≤ x ∧ x < c.framebuffer.screenWidth) →
      (0 ≤ y ∧ y < c.framebuffer.screenHeight) → Shows c x y) : d = c := by
  rw [Compositor.presentRect] at h
  split at h
  · exact (Except.ok.inj h).symm
  · obtain ⟨right, -, h⟩ := bind_eq_ok.mp h
    obtain ⟨bottom, -, h⟩ := bind_eq_ok.mp h
    dsimp only at h
    split at h
    · exact (pure_eq_ok.mp h).symm
    · rename_i hsome
      rw [not_or, not_le, not_le] at hsome
      obtain ⟨writes, hwrites, h⟩ := bind_eq_ok.mp h
      have hsame : paint writes c.screen = c.screen := paint_same fun w hw => by
        obtain ⟨x, y, hx, hy, rfl⟩ :=
          (mem_copyRows hs (le_max_right rect.x 0) (le_max_right rect.y 0)
          hsome.1 (min_le_right _ _) (min_le_right _ _) hwrites).mp hw
        exact hshows x y ⟨(le_max_right _ _).trans hx.1, hx.2.trans_le (min_le_right _ _)⟩
          ⟨(le_max_right _ _).trans hy.1, hy.2.trans_le (min_le_right _ _)⟩
      rw [hsame] at h
      exact (pure_eq_ok.mp h).symm

theorem scene_covers {writes : List Write} (h : c.scene glyph = .ok writes)
    (hx : 0 ≤ x ∧ x < c.framebuffer.screenWidth) (hy : 0 ≤ y ∧ y < c.framebuffer.screenHeight) :
    backIndex x y ∈ writes.map Prod.fst := by
  simp only [Compositor.scene, bind_eq_ok, pure_eq_ok] at h
  obtain ⟨_, -, _, -, rfl⟩ := h
  exact List.mem_map.mpr ⟨_, mem_append_left _ (mem_append_left _
    (mem_append_left _ (mem_screenFill_all hx hy))), rfl⟩

theorem onScreen_of_has {fb : Framebuffer} {size left top : ℤ} (hleft : 0 ≤ left) (htop : 0 ≤ top)
    (hhas : (cursorRectAt fb size left top).Has x y) :
    (0 ≤ x ∧ x < fb.screenWidth) ∧ (0 ≤ y ∧ y < fb.screenHeight) := by
  obtain ⟨hx, hy⟩ := has_cursorRectAt.mp hhas
  exact ⟨⟨hleft.trans hx.1, hx.2.trans_le (min_le_right _ _)⟩,
    ⟨htop.trans hy.1, hy.2.trans_le (min_le_right _ _)⟩⟩

theorem Drawn.onScreen (h : Drawn c picture) (hhas : c.cursorRect.Has x y) :
    (0 ≤ x ∧ x < c.framebuffer.screenWidth) ∧ (0 ≤ y ∧ y < c.framebuffer.screenHeight) := by
  obtain ⟨left, top, hleft, htop, hrect⟩ := h.rect
  exact onScreen_of_has hleft htop (hrect ▸ hhas)

theorem backIndex_inj (hs : Suited c) {x' y' : ℤ} (hx : 0 ≤ x ∧ x < c.framebuffer.screenWidth)
    (hy : 0 ≤ y ∧ y < c.framebuffer.screenHeight) (hx' : 0 ≤ x' ∧ x' < c.framebuffer.screenWidth)
    (hy' : 0 ≤ y' ∧ y' < c.framebuffer.screenHeight) (h : backIndex x y = backIndex x' y') :
    x = x' ∧ y = y' := by
  have hcolumn : ∀ {x : ℤ}, 0 ≤ x ∧ x < c.framebuffer.screenWidth → x.toNat < maxScreenWidth :=
    fun hx => by
      have hwidth := hs.width.2
      rw [hs.screenWidth] at hx
      omega
  obtain ⟨hmod, hdiv⟩ := decode_slot (m := y.toNat) (hcolumn hx)
  obtain ⟨hmod', hdiv'⟩ := decode_slot (m := y'.toNat) (hcolumn hx')
  simp only [backIndex] at h
  rw [h] at hmod hdiv
  exact ⟨by omega, by omega⟩

theorem Shown.repaint (h : Shown glyph c picture) {writes : List Write}
    (hwrites : c.scene glyph = .ok writes) : paint writes c.backbuffer = picture := by
  obtain ⟨_, hsame, hpicture⟩ := h.scene
  obtain rfl := Except.ok.inj (hwrites.symm.trans hsame)
  refine (paint_eq fun i hi => h.outside i fun x y hhas hindex => hi ?_).trans hpicture
  obtain ⟨hx, hy⟩ := h.onScreen hhas
  exact hindex ▸ scene_covers hwrites hx hy

/-- **A full redraw** would show the same. -/
theorem Shown.asComposed (hs : Suited c) (h : Shown glyph c picture) : AsComposed glyph c := by
  obtain ⟨writes, hwrites, -⟩ := h.scene
  obtain ⟨arrow, harrow, hback⟩ := h.arrow
  have hinside : ∀ w ∈ writes, w.1 < screenPixels := fun w hw =>
    (clipped_scene hwrites w hw).lt hs.screenFits
  obtain ⟨drawn, hdrawn⟩ := (ok_drawCursorAndSave (c := { c with backbuffer := picture })
    hs.screenFits h.nonneg.1 h.nonneg.2 hs.cursor.1).mpr (cursorFits_backbuffer.mpr h.fits)
  obtain ⟨saves, arrow', -, harrow', -, -, hd⟩ := drawCursorAndSave_eq_ok hdrawn
  obtain rfl : arrow = arrow' := Except.ok.inj (harrow.symm.trans harrow')
  have hfb : drawn.framebuffer = c.framebuffer := hd ▸ rfl
  have hbackbuffer : drawn.backbuffer = c.backbuffer := by rw [hd, hback]
  have hscreen : drawn.screen = c.screen := hd ▸ rfl
  have hsuited : Suited drawn := by
    rw [hd]
    exact ⟨hs.width, hs.height, hs.pitch, hs.cursor⟩
  obtain ⟨shown, hshown⟩ := ok_presentAll hsuited.screenFits
  have hsame : shown = drawn := presentRect_same hsuited hshown fun x y hx hy => by
    rw [Shows, hfb, hbackbuffer, hscreen]
    rw [hfb] at hx hy
    exact h.shows x y hx hy
  refine ⟨{ drawn with cursorPresent := true }, ?_, hbackbuffer, hscreen⟩
  exact bind_eq_ok.mpr ⟨writes, hwrites, bind_eq_ok.mpr
    ⟨picture, writeAll_eq_ok.mpr ⟨hinside, (h.repaint hwrites).symm⟩, bind_eq_ok.mpr
      ⟨drawn, hdrawn, bind_eq_ok.mpr ⟨shown, hshown, by rw [hsame]; rfl⟩⟩⟩⟩

/-- The cursor is drawn over a picture, and the rectangle that is shown has what changed. -/
theorem shown_of_cursor (hs : Suited c) (hnonneg : 0 ≤ c.pointerX ∧ 0 ≤ c.pointerY)
    (hscene : ∃ writes, c.scene glyph = .ok writes ∧ paint writes c.backbuffer = c.backbuffer)
    (hdrawn : c.drawCursorAndSave = .ok d) {shown : Compositor}
    (hshown : d.presentRect rect = .ok shown)
    (hshows : ∀ x y, (0 ≤ x ∧ x < c.framebuffer.screenWidth) →
      (0 ≤ y ∧ y < c.framebuffer.screenHeight) →
      rect.Has x y ∨ Shows c x y ∧ ¬ d.cursorRect.Has x y) :
    Shown glyph shown c.backbuffer := by
  have hfits := (ok_drawCursorAndSave hs.screenFits hnonneg.1 hnonneg.2 hs.cursor.1).mp ⟨d, hdrawn⟩
  have hrect := drawCursorAndSave_cursorRect hnonneg.1 hnonneg.2 hdrawn
  obtain ⟨houtside, hsaved⟩ := drawn_cursor hs hnonneg.1 hnonneg.2 hdrawn
  obtain ⟨saves, arrow, -, harrow, -, -, hd⟩ := drawCursorAndSave_eq_ok hdrawn
  have hfb : d.framebuffer = c.framebuffer := hd ▸ rfl
  have hscreen : d.screen = c.screen := hd ▸ rfl
  have hback : d.backbuffer = paint arrow c.backbuffer := hd ▸ rfl
  have hsuited : Suited d := by
    rw [hd]
    exact ⟨hs.width, hs.height, hs.pitch, hs.cursor⟩
  have hall := fun x y => shows_presentRect (x := x) (y := y) hsuited hshown fun x y hx hy => by
    rw [hfb] at hx hy
    refine (hshows x y hx hy).imp id fun ⟨hc, hnot⟩ => ?_
    rw [Shows, hfb, hscreen, houtside _ fun x' y' hhas hindex => ?_]
    · exact hc
    · rw [hrect] at hhas
      obtain ⟨hx', hy'⟩ := onScreen_of_has hnonneg.1 hnonneg.2 hhas
      obtain ⟨rfl, rfl⟩ := backIndex_inj hs hx hy hx' hy' hindex
      exact hnot (hrect ▸ hhas)
  obtain ⟨screen, rfl⟩ := presentRect_eq_ok hshown
  rw [hfb] at hall
  subst hd
  exact {
    present := rfl
    rect := ⟨_, _, hnonneg.1, hnonneg.2, hrect⟩
    outside := houtside
    saved := hsaved
    shows := hall
    nonneg := hnonneg
    fits := ⟨hfits.right, hfits.bottom, hfits.width, hfits.height, hfits.saved⟩
    scene := hscene
    arrow := ⟨arrow, harrow, rfl⟩ }

/-- After **a full redraw**. -/
theorem shown_compose (hs : Suited c) (hnonneg : 0 ≤ c.pointerX ∧ 0 ≤ c.pointerY)
    (h : c.compose glyph = .ok d) : ∃ picture, Shown glyph d picture := by
  obtain ⟨writes, drawn, shown, hwrites, -, hdrawn, hshown, rfl⟩ := compose_eq_ok h
  have hafter := shown_of_cursor (c := { c with backbuffer := paint writes c.backbuffer })
    ⟨hs.width, hs.height, hs.pitch, hs.cursor⟩ hnonneg
      ⟨writes, hwrites, paint_paint _ _⟩ hdrawn hshown
    fun x y hx hy => Or.inl ⟨by rw [zero_add]; exact hx, by rw [zero_add]; exact hy⟩
  have hsame : { shown with cursorPresent := true } = shown := by
    rw [← hafter.present]
  rw [hsame]
  exact ⟨_, hafter⟩

theorem has_union {r s u : Rect} (h : r.union s = .ok u) (hhas : r.Has x y ∨ s.Has x y) :
    u.Has x y := by
  rw [Rect.union] at h
  simp only [Rect.Has] at hhas ⊢
  split at h
  · rename_i hempty
    cases h
    rw [isEmpty_iff] at hempty
    omega
  split at h
  · rename_i hempty
    cases h
    rw [isEmpty_iff] at hempty
    omega
  · simp only [bind_eq_ok, pure_eq_ok, i32_eq_ok] at h
    obtain ⟨_, ⟨-, rfl⟩, _, ⟨-, rfl⟩, _, ⟨-, rfl⟩, _, ⟨-, rfl⟩, _, ⟨-, rfl⟩, _, ⟨-, rfl⟩, rfl⟩ := h
    dsimp only
    omega

/-- What was behind the cursor is put back. -/
theorem blitSaved_picture (hdrawn : Drawn c picture) (hrestores : Restores c)
    (h : c.blitSaved c.cursorRect = .ok d) : d = { c with backbuffer := picture } := by
  rw [Compositor.blitSaved] at h
  split at h
  · rename_i hempty
    obtain rfl := Except.ok.inj h
    rw [isEmpty_iff] at hempty
    have hsame : c.backbuffer = picture := funext fun i => hdrawn.outside i fun x y hhas => by
      obtain ⟨⟨hleft, hright⟩, htop, hbottom⟩ := hhas
      omega
    rw [← hsame]
  · obtain ⟨writes, hwrites, h⟩ := bind_eq_ok.mp h
    obtain ⟨backbuffer, hback, h⟩ := bind_eq_ok.mp h
    obtain ⟨-, rfl⟩ := writeAll_eq_ok.mp hback
    obtain rfl := pure_eq_ok.mp h
    rw [Compositor.restoreBehind] at hwrites
    obtain ⟨left, top, hleft, htop, hrect⟩ := hdrawn.rect
    have hx : c.cursorRect.x = left := congrArg Rect.x hrect
    have hy : c.cursorRect.y = top := congrArg Rect.y hrect
    have hindex : ∀ row column : ℕ, (c.cursorRect.y.toNat + row) * maxScreenWidth +
        c.cursorRect.x.toNat + column =
          backIndex (c.cursorRect.x + column) (c.cursorRect.y + row) := by
      intro row column
      have hrow : (c.cursorRect.y + row).toNat = c.cursorRect.y.toNat + row := by omega
      have hcolumn : (c.cursorRect.x + column).toNat = c.cursorRect.x.toNat + column := by omega
      rw [backIndex, hrow, hcolumn, add_assoc]
    have hsame : paint writes c.backbuffer = picture := by
      funext i
      by_cases hi : i ∈ writes.map Prod.fst
      · refine paint_picture (fun w hw => ?_) hi
        obtain ⟨row, hrow, column, hcolumn, rfl⟩ := (mem_grid hwrites).mp hw
        rw [mem_range] at hrow hcolumn
        have hsaved := hdrawn.saved (c.cursorRect.x + column) (c.cursorRect.y + row)
          ⟨⟨by omega, by omega⟩, ⟨by omega, by omega⟩⟩
        rw [add_sub_cancel_left, add_sub_cancel_left, Int.toNat_natCast,
          Int.toNat_natCast] at hsaved
        dsimp only
        rw [hrestores row hrow column hcolumn, hsaved, hindex]
      · rw [paint_of_not_mem hi]
        refine hdrawn.outside i fun x y hhas hxy => hi ?_
        obtain ⟨⟨hxl, hxr⟩, hyl, hyr⟩ := hhas
        refine List.mem_map.mpr ⟨_, (mem_grid hwrites).mpr ⟨(y - c.cursorRect.y).toNat,
          mem_range.mpr (by omega), (x - c.cursorRect.x).toNat, mem_range.mpr (by omega), rfl⟩, ?_⟩
        dsimp only
        rw [hindex, hxy, Int.toNat_of_nonneg (by omega), Int.toNat_of_nonneg (by omega),
          add_sub_cancel, add_sub_cancel]
    rw [hsame]

/-- After **a redraw of the cursor**. -/
theorem shown_updateCursorOnly (hs : Suited c) (hnonneg : 0 ≤ c.pointerX ∧ 0 ≤ c.pointerY)
    (hdrawn : Drawn c picture)
    (hscene : ∃ writes, c.scene glyph = .ok writes ∧ paint writes picture = picture)
    (hrestores : Restores c) (h : c.updateCursorOnly glyph = .ok d) : Shown glyph d picture := by
  obtain ⟨restored, drawn, damage, hrestored, hcursor, hdamage, hshown⟩ :=
    updateCursorOnly_eq_ok hdrawn.present h
  obtain rfl := blitSaved_picture hdrawn hrestores hrestored
  refine shown_of_cursor (c := { c with backbuffer := picture })
    ⟨hs.width, hs.height, hs.pitch, hs.cursor⟩ hnonneg hscene hcursor hshown fun x y hx hy => ?_
  by_cases hnew : drawn.cursorRect.Has x y
  · exact Or.inl (has_union hdamage (Or.inr hnew))
  by_cases hold : c.cursorRect.Has x y
  · exact Or.inl (has_union hdamage (Or.inl hold))
  · refine Or.inr ⟨?_, hnew⟩
    refine (hdrawn.shows x y hx hy).trans (hdrawn.outside _ fun x' y' hhas hindex => hold ?_)
    obtain ⟨hx', hy'⟩ := hdrawn.onScreen hhas
    obtain ⟨rfl, rfl⟩ := backIndex_inj hs hx hy hx' hy' hindex
    exact hhas

end Shown

/-! ### Runs -/

/-- The surfaces are the same, and so are the pixels of theirs that are drawn. -/
structure SameSurfaces (c c' : Compositor) : Prop where
  external : c'.external = c.external
  memory : ∀ surface ∈ c.external,
    ∀ row < asUsize (min (surface.height : ℤ) c.framebuffer.screenHeight),
    ∀ column < asUsize (min (surface.width : ℤ) c.framebuffer.screenWidth),
      c'.memory surface.address (row * surface.pitch + column) =
        c.memory surface.address (row * surface.pitch + column)

/-- **The condition** on an iteration: when it does not draw everything, no window was dragged, the
surfaces are the same, and what it puts back behind the cursor is what was saved. -/
def Steady (c : Compositor) (round : Round) : Prop :=
  ∀ c', c.gather round = .ok c' → c'.dirty = false →
    c'.windows = c.windows ∧ SameSurfaces c c' ∧ (c'.cursorDirty = true → Restores c)

/-- The states at the end of the iterations of `run`. -/
inductive Runs (glyph : Char → ℕ → BitVec 8) (allowed : Compositor → Round → Prop)
    (begins : Compositor) : Compositor → Prop
  | start {c : Compositor} (h : begins.start glyph = .ok c) : Runs glyph allowed begins c
  | iterate {c c' : Compositor} {round : Round} (h : Runs glyph allowed begins c)
    (hallowed : allowed c round) (hstep : c.iterate glyph round = .ok c') :
      Runs glyph allowed begins c'

section Runs

variable {c c' d : Compositor} {picture : ℕ → Pixel} {glyph : Char → ℕ → BitVec 8} {round : Round}
  {fb : Framebuffer}

theorem drawAll_congr {β : Type} {f g : β → Except Stop (List Write)} {l : List β}
    (h : ∀ x ∈ l, f x = g x) : drawAll f l = drawAll g l := by
  induction l with
  | nil => rfl
  | cons x xs ih =>
    rw [drawAll, drawAll, h x mem_cons_self, ih fun y hy => h y (mem_cons_of_mem _ hy)]

theorem drawExternal_congr (hs : SameSurfaces c c') (hfb : c'.framebuffer = c.framebuffer)
    {surface : ExternalSurface} (hmem : surface ∈ c.external) :
    c'.drawExternal surface = c.drawExternal surface := by
  rw [Compositor.drawExternal, Compositor.drawExternal, hfb]
  refine drawAll_congr fun row hrow => drawAll_congr fun column hcolumn => ?_
  rw [mem_range] at hrow hcolumn
  rw [readAt, readAt, hs.memory surface hmem row hrow column hcolumn]

theorem scene_congr (hcanvas : c'.canvas = c.canvas) (hwindows : c'.windows = c.windows)
    (hfocused : c'.focused = c.focused) (hs : SameSurfaces c c') :
    c'.scene glyph = c.scene glyph := by
  have hfb : c'.framebuffer = c.framebuffer := congrArg Canvas.framebuffer hcanvas
  have htheme : c'.theme = c.theme := congrArg Canvas.theme hcanvas
  have hexternal : drawAll c'.drawExternal c'.external = drawAll c.drawExternal c.external := by
    rw [hs.external]
    exact drawAll_congr fun surface hmem => drawExternal_congr hs hfb hmem
  simp only [Compositor.scene, Compositor.order, Compositor.drawDesktopBar, Compositor.drawWindow,
    hexternal, hfb, htheme, hwindows, hfocused]

theorem Drawn.congr (h : Drawn c picture) (hcanvas : c'.canvas = c.canvas) : Drawn c' picture := by
  cases c
  cases c'
  cases hcanvas
  exact ⟨h.present, h.rect, h.outside, h.saved, h.shows⟩

theorem Shown.congr (h : Shown glyph c picture) (hcanvas : c'.canvas = c.canvas)
    (hwindows : c'.windows = c.windows) (hfocused : c'.focused = c.focused) (hs : SameSurfaces c c')
    (hx : c'.pointerX = c.pointerX) (hy : c'.pointerY = c.pointerY) : Shown glyph c' picture := by
  have hfb : c'.framebuffer = c.framebuffer := congrArg Canvas.framebuffer hcanvas
  have htheme : c'.theme = c.theme := congrArg Canvas.theme hcanvas
  have hback : c'.backbuffer = c.backbuffer := congrArg Canvas.backbuffer hcanvas
  have harrow : c'.drawArrow = c.drawArrow := by
    simp only [Compositor.drawArrow, hfb, htheme, hx, hy]
  refine { h.toDrawn.congr hcanvas with
    nonneg := by rw [hx, hy]; exact h.nonneg
    fits := ?_
    scene := by rw [scene_congr hcanvas hwindows hfocused hs]; exact h.scene
    arrow := by rw [harrow, hback]; exact h.arrow }
  constructor
  all_goals simp only [hfb, htheme, hx, hy]
  exacts [h.fits.right, h.fits.bottom, h.fits.width, h.fits.height, h.fits.saved]

/-- What holds at the end of an iteration. -/
structure Ended (glyph : Char → ℕ → BitVec 8) (fb : Framebuffer) (theme : WindowTheme)
    (c : Compositor) : Prop where
  settled : Settled fb theme c
  shown : ∃ picture, Shown glyph c picture

variable {theme : WindowTheme}

theorem Ended.of_same (h : Ended glyph fb theme c) (dirty cursorDirty : Bool)
    (frameNumber : BitVec 32) :
    Ended glyph fb theme { c with
      dirty := dirty
      cursorDirty := cursorDirty
      frameNumber := frameNumber } := by
  obtain ⟨hs, picture, hshown⟩ := h
  exact ⟨⟨hs.framebuffer, hs.theme, hs.pointerX, hs.pointerY, fun hp =>
    ⟨(hs.placed hp).screen, (hs.placed hp).rect⟩⟩, picture,
    hshown.congr rfl rfl rfl ⟨rfl, fun _ _ _ _ _ _ => rfl⟩ rfl rfl⟩

theorem suited_of_settled {info : FramebufferInfo} {css : List UInt8}
    (hmap : mapFramebuffer info = some fb) (hwidth : fb.width ≤ maxScreenWidth)
    (hheight : fb.height ≤ maxScreenHeight)
    (hcursor : (applyCss .defaults css).cursorSize ≤ maxCursorWidth)
    (h : Settled fb (applyCss .defaults css) c) : Suited c := by
  obtain ⟨hw, hh⟩ := mapFramebuffer_bounds hmap
  obtain ⟨rfl, htheme, -, -, -⟩ := h
  refine ⟨⟨pos_of_ne_zero hw.1, hwidth⟩, ⟨pos_of_ne_zero hh.1, hheight⟩, ?_, ?_⟩
  · rw [mapFramebuffer] at hmap
    obtain ⟨hsome, hfb⟩ := Option.ite_none_left_eq_some.mp hmap |>.imp id Option.some.inj
    simp only [not_or] at hsome
    have hpitch := hsome.2.2.2
    rw [← hfb] at hwidth ⊢
    rw [UInt32.lt_iff_toNat_lt, UInt32.toNat_mul, not_lt,
      show (4 : UInt32).toNat = 4 from rfl] at hpitch
    simp only [maxScreenWidth] at hwidth
    dsimp only
    have hsmall : info.width.toNat * 4 < 2 ^ 32 := by omega
    rw [mod_eq_of_lt hsmall] at hpitch
    exact (le_div_iff_mul_le (by decide)).mpr hpitch
  · rw [htheme]
    exact ⟨(applyCss_sized .defaults css).cursorSize.1, hcursor⟩

theorem Settled.gather (h : Settled fb theme c) (hg : Gathers c c')
    (hplaced : Placed c) : Settled fb theme c' := by
  have hfb : c'.framebuffer = c.framebuffer := congrArg Canvas.framebuffer hg.canvas
  have htheme : c'.theme = c.theme := congrArg Canvas.theme hg.canvas
  have hrect : c'.cursorRect = c.cursorRect := congrArg Canvas.cursorRect hg.canvas
  obtain ⟨hx, hy⟩ := hg.nonneg ⟨h.pointerX, h.pointerY⟩
  refine ⟨hfb.trans h.framebuffer, htheme.trans h.theme, hx, hy, fun _ => ?_⟩
  refine ⟨hfb ▸ hplaced.screen, ?_⟩
  rw [hrect, hfb, htheme]
  exact hplaced.rect

/-- **An iteration** ends with what a full redraw would show. -/
theorem ended_iterate (hsuited : ∀ c, Settled fb theme c → Suited c)
    (h : Ended glyph fb theme c) (hsteady : Steady c round)
    (hstep : c.iterate glyph round = .ok d) :
    Ended glyph fb theme d := by
  obtain ⟨hsettled, picture, hshown⟩ := h
  rw [Compositor.iterate] at hstep
  obtain ⟨gathered, hgathered, hstep⟩ := bind_eq_ok.mp hstep
  obtain ⟨redrawn, hredrawn, hstep⟩ := bind_eq_ok.mp hstep
  obtain rfl := pure_eq_ok.mp hstep
  have hg := gathers_gather hgathered
  have hgsettled := hsettled.gather hg ⟨(hsuited c hsettled).screenFits, hshown.rect⟩
  have hgsuited := hsuited gathered hgsettled
  have hnonneg : 0 ≤ gathered.pointerX ∧ 0 ≤ gathered.pointerY :=
    ⟨hgsettled.pointerX, hgsettled.pointerY⟩
  rw [Compositor.redraw] at hredrawn
  split at hredrawn
  · obtain ⟨composed, hcomposed, hredrawn⟩ := bind_eq_ok.mp hredrawn
    obtain rfl := pure_eq_ok.mp hredrawn
    obtain ⟨picture, hafter⟩ := shown_compose hgsuited hnonneg hcomposed
    have hended : Ended glyph fb theme composed :=
      ⟨hgsettled.compose hcomposed, picture, hafter⟩
    exact hended.of_same _ _ _
  · rename_i hdirty
    rw [Bool.not_eq_true] at hdirty
    obtain ⟨hwindows, hsurfaces, hrestores⟩ := hsteady gathered hgathered hdirty
    have hfocused := (hg.focused hdirty).2
    have hscene : gathered.scene glyph = c.scene glyph :=
      scene_congr hg.canvas hwindows hfocused hsurfaces
    split at hredrawn
    · rename_i hcursor
      obtain ⟨updated, hupdated, hredrawn⟩ := bind_eq_ok.mp hredrawn
      obtain rfl := pure_eq_ok.mp hredrawn
      have hcanvasRestores : Restores gathered := by
        have hr := hrestores hcursor
        rw [Restores, show gathered.cursorRect = c.cursorRect from
          congrArg Canvas.cursorRect hg.canvas,
          show gathered.cursorSaved = c.cursorSaved from congrArg Canvas.cursorSaved hg.canvas]
        exact hr
      have hafter := shown_updateCursorOnly hgsuited hnonneg (hshown.toDrawn.congr hg.canvas)
        (by rw [hscene]; exact hshown.scene) hcanvasRestores hupdated
      have hended : Ended glyph fb theme updated :=
        ⟨hgsettled.updateCursorOnly hupdated, picture, hafter⟩
      exact hended.of_same _ _ _
    · rename_i hcursor
      rw [Bool.not_eq_true] at hcursor
      obtain rfl := Except.ok.inj hredrawn
      obtain ⟨-, hx, hy⟩ := hg.pointer hcursor
      have hended : Ended glyph fb theme gathered :=
        ⟨hgsettled, picture, hshown.congr hg.canvas hwindows hfocused hsurfaces hx hy⟩
      exact hended.of_same _ _ _

/-- **Headline.** Whenever an iteration has ended, a full redraw would change nothing that is seen,
if every iteration is steady. -/
theorem asComposed_of_steady {info : FramebufferInfo} {css : List UInt8}
    (hmap : mapFramebuffer info = some fb) (hwidth : fb.width ≤ maxScreenWidth)
    (hheight : fb.height ≤ maxScreenHeight)
    (hcursor : (applyCss .defaults css).cursorSize ≤ maxCursorWidth) {screen : ℕ → Pixel}
    {windows : List Window}
    (h : Runs glyph Steady (.new fb screen (applyCss .defaults css) windows) c) :
    AsComposed glyph c := by
  have hsuited := fun c => suited_of_settled (c := c) hmap hwidth hheight hcursor
  have hended : Ended glyph fb (applyCss .defaults css) c := by
    induction h with
    | start h =>
      obtain ⟨composed, hcomposed, h⟩ := bind_eq_ok.mp h
      obtain rfl := pure_eq_ok.mp h
      have hs := (Reached.new screen windows : Reached glyph fb (applyCss .defaults css) _).settled
      obtain ⟨picture, hafter⟩ := shown_compose (hsuited _ hs) ⟨hs.pointerX, hs.pointerY⟩ hcomposed
      have hended : Ended glyph fb (applyCss .defaults css) composed :=
        ⟨hs.compose hcomposed, picture, hafter⟩
      exact hended.of_same _ _ _
    | iterate _ hallowed hstep ih => exact ended_iterate hsuited ih hallowed hstep
  obtain ⟨picture, hshown⟩ := hended.shown
  exact hshown.asComposed (hsuited c hended.settled)

end Runs

/-- A screen of 34 by 34: the pointer begins two pixels from its corner. -/
def narrowScreen : FramebufferInfo := ⟨1, 34, 34, 136, 16, 8, 0⟩

/-- The screen of 34 by 34, once it is mapped. -/
def narrowFramebuffer : Framebuffer := ⟨34, 34, 34, 16, 8, 0⟩

/-- A window manager without windows, on this screen. -/
def onNarrow (css : List UInt8) : Compositor :=
  .new narrowFramebuffer (fun _ => 0) (applyCss .defaults css) []

/-- The pointer moves, and nothing else happens. -/
def pointerTo (x y : ℕ) : Round := ⟨[.mouseMove x y], [], fun _ _ => 0⟩

/-- `#cursor{size: 1px;}` -/
def smallCursor : List UInt8 :=
  [35, 99, 117, 114, 115, 111, 114, 123, 115, 105, 122, 101, 58, 32, 49, 112, 120, 59, 125]

theorem steady_pointerTo {c : Compositor} (hwindows : c.windows = []) (hexternal : c.external = [])
    (hdragging : c.dragging = none) (hheight : c.cursorRect.height.toNat ≤ 1) (x y : ℕ) :
    Steady c (pointerTo x y) := by
  cases c
  subst hwindows hexternal hdragging
  intro c' hc' _
  cases hc'
  refine ⟨rfl, ⟨rfl, fun _ h => absurd h not_mem_nil⟩, fun _ row hrow column _ => ?_⟩
  obtain rfl := lt_one_iff.mp (hrow.trans_le hheight)
  rw [zero_mul, zero_mul]

theorem eq_ok_of_toOption {α : Type} {m : Except Stop α} {a : α} (h : m.toOption = some a) :
    m = .ok a := by
  cases m with
  | error e => cases h
  | ok b => exact congrArg Except.ok (Option.some.inj h)

theorem asComposed_of_steady_sample :
    ∃ c, Runs (fun _ _ => 0) Steady (onNarrow smallCursor) c ∧ c.pointerX = 33 ∧
      AsComposed (fun _ _ => 0) c := by
  have hrun : (do
      let c ← (onNarrow smallCursor).start fun _ _ => 0
      let d ← c.iterate (fun _ _ => 0) (pointerTo 33 32)
      return (c.windows.length, c.external.length, c.dragging, c.cursorRect.height.toNat,
        d.pointerX)).toOption = some (0, 0, none, 1, 33) := by decide +kernel
  obtain ⟨c, hstart, h⟩ := bind_eq_ok.mp (eq_ok_of_toOption hrun)
  obtain ⟨d, hstep, h⟩ := bind_eq_ok.mp h
  obtain ⟨hwindows, hexternal, hdragging, hheight, hx⟩ := by
    simpa only [Prod.mk.injEq] using pure_eq_ok.mp h
  have hruns : Runs (fun _ _ => 0) Steady (onNarrow smallCursor) d :=
    .iterate (.start hstart) (steady_pointerTo (length_eq_zero_iff.mp hwindows)
      (length_eq_zero_iff.mp hexternal) hdragging hheight.le 33 32) hstep
  have hmap : mapFramebuffer narrowScreen = some narrowFramebuffer := by decide +kernel
  exact ⟨d, hruns, hx, asComposed_of_steady hmap (by decide +kernel) (by decide +kernel)
    (by decide +kernel) hruns⟩

/-- The pointer moves away, and a pixel that was behind it is not the one that was there. -/
theorem smeared_by_pointer :
    mapFramebuffer narrowScreen = some narrowFramebuffer ∧
      (applyCss .defaults []).cursorSize ≤ maxCursorWidth ∧
      ∃ c, Runs (fun _ _ => 0) (fun _ _ => True) (onNarrow []) c ∧
        ¬ AsComposed (fun _ _ => 0) c := by
  have hrun : (do
      let c ← (onNarrow []).start fun _ _ => 0
      let d ← c.iterate (fun _ _ => 0) (pointerTo 0 0)
      let composed ← d.compose fun _ _ => 0
      return composed.backbuffer (backIndex 32 33) == d.backbuffer (backIndex 32 33)).toOption =
        some false := by decide +kernel
  obtain ⟨c, hstart, h⟩ := bind_eq_ok.mp (eq_ok_of_toOption hrun)
  obtain ⟨d, hstep, h⟩ := bind_eq_ok.mp h
  obtain ⟨composed, hcomposed, h⟩ := bind_eq_ok.mp h
  have hne := pure_eq_ok.mp h
  refine ⟨by decide +kernel, by decide +kernel, d, .iterate (.start hstart) trivial hstep, ?_⟩
  rintro ⟨composed', hcomposed', hback, -⟩
  obtain rfl := Except.ok.inj (hcomposed.symm.trans hcomposed')
  rw [hback, beq_self_eq_true] at hne
  cases hne

end ImagineOS.Display
