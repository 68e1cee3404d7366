import ImagineOS.Display.Compositor

/-!
# Display: buffers and numbers

The back buffer has room for 1920 by 1080 pixels, and what is behind the cursor for 32 by 32, but
the sizes of a screen and of a theme are not compared with these. So a drawing may leave its
buffers, and the coordinates may leave the numbers of 32 bits.
-/

namespace ImagineOS.Display

open List

/-! ### The screen -/

/-- The screen has room in the back buffer, or has a negative size as a number of 32 bits. -/
def ScreenFits (fb : Framebuffer) : Prop :=
  fb.screenWidth ≤ 0 ∨ fb.screenHeight ≤ 0 ∨
    (fb.screenHeight - 1) * maxScreenWidth + fb.screenWidth ≤ screenPixels

instance (fb : Framebuffer) : Decidable (ScreenFits fb) := inferInstanceAs (Decidable (_ ∨ _))

section Screen

variable {fb : Framebuffer} {c : Compositor} {w : Write} {x y : ℤ} {color : Pixel}

theorem backIndex_lt (h : ScreenFits fb) (hx : 0 ≤ x ∧ x < fb.screenWidth)
    (hy : 0 ≤ y ∧ y < fb.screenHeight) : backIndex x y < screenPixels := by
  simp only [ScreenFits, backIndex, maxScreenWidth, screenPixels, maxScreenHeight] at h ⊢
  omega

theorem Clipped.lt (h : Clipped fb w) (hfits : ScreenFits fb) : w.1 < screenPixels := by
  obtain ⟨x, y, hx, hy, hw⟩ := h
  exact hw ▸ backIndex_lt hfits hx hy

theorem screenWidth_mem (fb : Framebuffer) : InI32 fb.screenWidth := asI32_mem _

theorem screenHeight_mem (fb : Framebuffer) : InI32 fb.screenHeight := asI32_mem _

theorem saturatingAdd_zero {n : ℤ} (h : InI32 n) : saturatingAdd 0 n = n := by
  rw [InI32] at h
  rw [saturatingAdd, zero_add, min_eq_left (by omega), max_eq_right h.1]

theorem mem_screenFill_all (hx : 0 ≤ x ∧ x < fb.screenWidth) (hy : 0 ≤ y ∧ y < fb.screenHeight) :
    (backIndex x y, color) ∈ fb.screenFill 0 0 fb.screenWidth fb.screenHeight color := by
  refine mem_screenFill.mpr ⟨x, y, ?_, ?_, rfl⟩
  · rw [saturatingAdd_zero (screenWidth_mem fb), max_self, min_self]
    exact hx
  · rw [saturatingAdd_zero (screenHeight_mem fb), max_self, min_self]
    exact hy

theorem screenFits_of_fill
    (h : ∀ w ∈ fb.screenFill 0 0 fb.screenWidth fb.screenHeight color, w.1 < screenPixels) :
    ScreenFits fb := by
  by_cases hw : fb.screenWidth ≤ 0
  · exact Or.inl hw
  by_cases hh : fb.screenHeight ≤ 0
  · exact Or.inr (Or.inl hh)
  have hlast := h _ (mem_screenFill_all (x := fb.screenWidth - 1) (y := fb.screenHeight - 1)
    ⟨by omega, by omega⟩ ⟨by omega, by omega⟩)
  refine Or.inr (Or.inr ?_)
  simp only [backIndex, maxScreenWidth, screenPixels, maxScreenHeight] at hlast ⊢
  omega

theorem ok_copyRows (hfits : ScreenFits c.framebuffer) {left top right bottom : ℤ}
    (hleft : 0 ≤ left)
    (htop : 0 ≤ top) (hlt : left < right) (hright : right ≤ c.framebuffer.screenWidth)
    (hbottom : bottom ≤ c.framebuffer.screenHeight) : Ok (c.copyRows left top right bottom) := by
  refine ok_drawAll.mpr fun row hrow => ?_
  rw [mem_span] at hrow
  have hlast : backIndex (right - 1) row < screenPixels :=
    backIndex_lt hfits ⟨by omega, by omega⟩ ⟨by omega, by omega⟩
  have hline : backIndex left row + (right - left).toNat ≤ screenPixels := by
    simp only [backIndex] at hlast ⊢
    omega
  rw [if_pos hline]
  exact ok_ok _

theorem ok_presentRect (hfits : ScreenFits c.framebuffer) {rect : Rect}
    (hx : InI32 (rect.x + rect.width)) (hy : InI32 (rect.y + rect.height)) :
    Ok (c.presentRect rect) := by
  rw [Compositor.presentRect]
  split
  · exact ok_ok c
  · rw [ok_i32_bind, ok_i32_bind]
    refine ⟨hx, hy, ?_⟩
    dsimp only
    split
    · exact ok_pure c
    · rename_i hempty
      rw [not_or, not_le, not_le] at hempty
      refine ok_bind.mpr ?_
      obtain ⟨rows, hrows⟩ := ok_copyRows hfits (le_max_right rect.x 0) (le_max_right rect.y 0)
        hempty.1 (min_le_right (rect.x + rect.width) _) (min_le_right (rect.y + rect.height) _)
      exact ⟨rows, hrows, ok_pure _⟩

end Screen

/-! ### The cursor -/

/-- The cursor fits: its square has coordinates of 32 bits, and what is behind it has room. -/
structure CursorFits (c : Compositor) : Prop where
  right : c.pointerX + c.theme.cursorSize < 2 ^ 31
  bottom : c.pointerY + c.theme.cursorSize < 2 ^ 31
  width : -2 ^ 31 ≤ c.framebuffer.screenWidth - c.pointerX
  height : -2 ^ 31 ≤ c.framebuffer.screenHeight - c.pointerY
  saved : min c.theme.cursorSize (c.framebuffer.screenWidth - c.pointerX) ≤ 0 ∨
    min c.theme.cursorSize (c.framebuffer.screenHeight - c.pointerY) ≤ 0 ∨
    (min c.theme.cursorSize (c.framebuffer.screenHeight - c.pointerY) - 1) * 32 +
      min c.theme.cursorSize (c.framebuffer.screenWidth - c.pointerX) ≤ 1024

section Cursor

variable {c : Compositor} {writes : List Write} {w : Write} {left top right bottom : ℤ}

theorem mem_saveBehind (h : c.saveBehind left top right bottom = .ok writes) :
    w ∈ writes ↔ ∃ x y, (left ≤ x ∧ x < right) ∧ (top ≤ y ∧ y < bottom) ∧
      w = ((y - top).toNat * maxCursorWidth + (x - left).toNat, c.backbuffer (backIndex x y)) := by
  rw [Compositor.saveBehind] at h
  split at h
  · rw [mem_grid h]
    constructor
    · rintro ⟨y, hy, x, hx, rfl⟩
      exact ⟨x, y, mem_span.mp hx, mem_span.mp hy, rfl⟩
    · rintro ⟨x, y, hx, hy, rfl⟩
      exact ⟨y, mem_span.mpr hy, x, mem_span.mpr hx, rfl⟩
  · rename_i hempty
    cases h
    refine iff_of_false not_mem_nil ?_
    rintro ⟨x, y, hx, hy, -⟩
    omega

theorem ok_saveBehind (hfits : ScreenFits c.framebuffer) (hleft : 0 ≤ left) (htop : 0 ≤ top)
    (hright : right ≤ c.framebuffer.screenWidth) (hbottom : bottom ≤ c.framebuffer.screenHeight) :
    Ok (c.saveBehind left top right bottom) := by
  rw [Compositor.saveBehind]
  split
  · refine ok_grid.mpr fun y hy x hx => ?_
    rw [mem_span] at hx hy
    exact backIndex_lt hfits ⟨by omega, by omega⟩ ⟨by omega, by omega⟩
  · exact ok_ok _

theorem saves_lt_iff (h : c.saveBehind left top right bottom = .ok writes) :
    (∀ w ∈ writes, w.1 < maxCursorWidth * maxCursorHeight) ↔
      right - left ≤ 0 ∨ bottom - top ≤ 0 ∨ (bottom - top - 1) * 32 + (right - left) ≤ 1024 := by
  simp only [maxCursorWidth, maxCursorHeight]
  constructor
  · intro hlt
    by_cases hwidth : right - left ≤ 0
    · exact Or.inl hwidth
    by_cases hheight : bottom - top ≤ 0
    · exact Or.inr (Or.inl hheight)
    have hlast := hlt _ ((mem_saveBehind h).mpr ⟨right - 1, bottom - 1, ⟨by omega, by omega⟩,
      ⟨by omega, by omega⟩, rfl⟩)
    simp only [maxCursorWidth] at hlast
    omega
  · intro hroom w hw
    obtain ⟨x, y, hx, hy, rfl⟩ := (mem_saveBehind h).mp hw
    simp only [maxCursorWidth]
    omega

/-- The coordinates of the arrow are in its square. -/
theorem ok_drawArrow (hx : 0 ≤ c.pointerX) (hy : 0 ≤ c.pointerY)
    (hright : c.pointerX + c.theme.cursorSize < 2 ^ 31)
    (hbottom : c.pointerY + c.theme.cursorSize < 2 ^ 31) (hsize : 1 ≤ c.theme.cursorSize) :
    Ok c.drawArrow := by
  have hpixel : ∀ (color : Pixel) (row column : ℤ), 0 ≤ column → column < c.theme.cursorSize →
      0 ≤ row → row < c.theme.cursorSize → Ok (do
        return c.framebuffer.screenPixel (← i32 (c.pointerX + column)) (← i32 (c.pointerY + row))
          color) := by
    intro color row column h₁ h₂ h₃ h₄
    rw [ok_i32_bind, ok_i32_bind]
    exact ⟨⟨by omega, by omega⟩, ⟨by omega, by omega⟩, ok_pure _⟩
  rw [Compositor.drawArrow]
  dsimp only
  rw [ok_bind_of (p := True), and_true, ok_drawAll]
  · intro row hrow
    refine ok_drawAll.mpr fun column hcolumn => ?_
    rw [mem_span] at hrow hcolumn
    exact hpixel _ _ _ (by omega) (by omega) (by omega) (by omega)
  · intro outline _
    rw [ok_i32_bind, ok_bind_of (p := True), and_true, ok_drawAll]
    · refine iff_true_intro ⟨⟨by omega, by omega⟩, fun row hrow => ok_drawAll.mpr fun column
        hcolumn => ?_⟩
      rw [mem_span] at hrow hcolumn
      exact hpixel _ _ _ (by omega) (by omega) (by omega) (by omega)
    · exact fun _ _ => iff_true_intro (ok_pure _)

/-- **The cursor** can be drawn if and only if it fits. -/
theorem ok_drawCursorAndSave (hfits : ScreenFits c.framebuffer) (hx : 0 ≤ c.pointerX)
    (hy : 0 ≤ c.pointerY) (hsize : 1 ≤ c.theme.cursorSize) :
    Ok c.drawCursorAndSave ↔ CursorFits c := by
  have hleft : max c.pointerX 0 = c.pointerX := max_eq_left hx
  have htop : max c.pointerY 0 = c.pointerY := max_eq_left hy
  have hwidth : min (c.pointerX + c.theme.cursorSize) c.framebuffer.screenWidth - c.pointerX =
      min c.theme.cursorSize (c.framebuffer.screenWidth - c.pointerX) := by omega
  have hheight : min (c.pointerY + c.theme.cursorSize) c.framebuffer.screenHeight - c.pointerY =
      min c.theme.cursorSize (c.framebuffer.screenHeight - c.pointerY) := by omega
  obtain ⟨saves, hsaves⟩ := ok_saveBehind hfits hx hy
    (min_le_right (c.pointerX + c.theme.cursorSize) _)
    (min_le_right (c.pointerY + c.theme.cursorSize) _)
  have hroom := saves_lt_iff hsaves
  rw [hwidth, hheight] at hroom
  rw [Compositor.drawCursorAndSave]
  dsimp only
  rw [ok_i32_bind, ok_i32_bind, hleft, htop, hsaves, hwidth, hheight]
  constructor
  · rintro ⟨hright, hbottom, h⟩
    obtain ⟨_, hs, h⟩ := ok_bind.mp h
    obtain ⟨saved, hsaved, h⟩ := ok_bind.mp h
    obtain ⟨hw, hh, -⟩ := ok_i32_bind.mp h |>.imp id ok_i32_bind.mp
    cases hs
    exact ⟨hright.2, hbottom.2, hw.1.trans (min_le_right _ _), hh.1.trans (min_le_right _ _),
      hroom.mp (writeAll_eq_ok.mp hsaved).1⟩
  · intro h
    have hright := h.right
    have hbottom := h.bottom
    have hw := h.width
    have hh := h.height
    obtain ⟨arrow, harrow⟩ := ok_drawArrow hx hy hright hbottom hsize
    have hinside : ∀ w ∈ arrow, w.1 < screenPixels := fun w hmem =>
      (inSquare_drawArrow harrow w hmem).clipped.lt hfits
    refine ⟨⟨by omega, hright⟩, ⟨by omega, hbottom⟩, ok_bind.mpr ⟨saves, rfl, ok_bind.mpr
      ⟨_, writeAll_eq_ok.mpr ⟨hroom.mpr h.saved, rfl⟩, ok_i32_bind.mpr ⟨⟨?_, ?_⟩,
        ok_i32_bind.mpr ⟨⟨?_, ?_⟩, ok_bind.mpr ⟨arrow, harrow, ok_bind.mpr
          ⟨_, writeAll_eq_ok.mpr ⟨hinside, rfl⟩, ok_pure _⟩⟩⟩⟩⟩⟩⟩
    · exact le_min (by omega) hw
    · exact (min_le_left _ _).trans_lt (by omega)
    · exact le_min (by omega) hh
    · exact (min_le_left _ _).trans_lt (by omega)

end Cursor

/-! ### Windows -/

section Windows

variable {c : Compositor} {glyph : Char → ℕ → BitVec 8} {window : Window} {fb : Framebuffer}
  {color : Pixel} {x y : ℤ}

theorem exists_getMsbD {b : BitVec 8} : (∃ column < 8, b.getMsbD column = true) ↔ b ≠ 0 := by
  constructor
  · rintro ⟨column, -, h⟩ rfl
    simp at h
  · intro hne
    by_contra hnone
    refine hne (BitVec.eq_of_getMsbD_eq fun column hcolumn => ?_)
    have hclear : ¬ b.getMsbD column = true := fun h => hnone ⟨column, hcolumn, h⟩
    simpa using hclear

/-- The rows of the characters have coordinates of 32 bits. -/
def RowsFit (glyph : Char → ℕ → BitVec 8) (y : ℤ) (text : List Char) : Prop :=
  ∀ character ∈ text, ∀ row < 8, glyph character row ≠ 0 → y + row < 2 ^ 31

theorem ok_drawText {text : List Char} (hx : InI32 x) (hy : -2 ^ 31 ≤ y) :
    Ok (Compositor.drawText glyph fb y color x text) ↔
      x + 9 * text.length < 2 ^ 31 ∧ RowsFit glyph y text := by
  induction text generalizing x with
  | nil =>
    rw [InI32] at hx
    refine iff_of_true (ok_ok _) ⟨?_, fun _ h => absurd h not_mem_nil⟩
    simpa using hx.2
  | cons character rest ih =>
    have hlength : ((character :: rest).length : ℤ) = rest.length + 1 := by simp
    rw [InI32] at hx
    rw [Compositor.drawText, ok_bind_of (p := x + 9 < 2 ^ 31 ∧ x + 9 + 9 * rest.length < 2 ^ 31 ∧
      RowsFit glyph y rest), ok_drawAll, hlength]
    · simp only [ok_drawAll, mem_range]
      constructor
      · rintro ⟨hhere, hnext, hrest, hrows⟩
        refine ⟨by omega, forall_mem_cons.mpr ⟨fun row hrow hne => ?_, hrows⟩⟩
        obtain ⟨column, hcolumn, hset⟩ := exists_getMsbD.mpr hne
        have hone := hhere row hrow column hcolumn
        rw [if_pos hset, ok_i32_bind, ok_i32_bind] at hone
        exact hone.2.1.2
      · rintro ⟨hnext, hrows⟩
        obtain ⟨hfirst, hrows⟩ := forall_mem_cons.mp hrows
        refine ⟨fun row hrow column hcolumn => ?_, by omega, by omega, hrows⟩
        split
        · rename_i hset
          have hlt := hfirst row hrow (exists_getMsbD.mp ⟨column, hcolumn, hset⟩)
          rw [ok_i32_bind, ok_i32_bind]
          exact ⟨⟨by omega, by omega⟩, ⟨by omega, by omega⟩, ok_pure _⟩
        · exact ok_ok _
    · intro here _
      rw [ok_i32_bind]
      constructor
      · rintro ⟨hnext, h⟩
        obtain ⟨ws, hws, -⟩ := ok_bind.mp h
        exact ⟨hnext.2, (ih hnext).mp ⟨ws, hws⟩⟩
      · rintro ⟨hnext, h⟩
        have hmem : InI32 (x + 9) := ⟨by omega, hnext⟩
        obtain ⟨ws, hws⟩ := (ih hmem).mpr h
        exact ⟨hmem, ok_bind.mpr ⟨ws, hws, ok_pure _⟩⟩

theorem tdiv_two (n : ℤ) : n - 1 ≤ 2 * n.tdiv 2 ∧ 2 * n.tdiv 2 ≤ n + 1 := by
  have hsum := Int.mul_tdiv_add_tmod n 2
  have hlow := Int.lt_tmod_of_pos n (show (0 : ℤ) < 2 by decide)
  have hhigh := Int.tmod_lt_of_pos n (show (0 : ℤ) < 2 by decide)
  omega

/-- A window fits: its frame, its buttons and its title have coordinates of 32 bits. -/
structure WindowFits (glyph : Char → ℕ → BitVec 8) (button : ℤ) (w : Window) : Prop where
  width : w.width + 2 * w.border < 2 ^ 31
  height : w.height + w.titleHeight + w.border < 2 ^ 31
  right : w.x + w.width + 2 * w.border < 2 ^ 31
  bottom : w.y + w.titleHeight + w.height ≤ 2 ^ 31
  buttons : 2 * button < 2 ^ 31
  buttonLeft : -2 ^ 31 ≤ w.x + w.width + 2 * w.border - 2 * button - 7
  buttonTop : -2 ^ 31 ≤ w.y + (w.titleHeight - button).tdiv 2
  titleRight : w.x + w.border + 8 + 9 * w.title.length < 2 ^ 31
  titleTop : -2 ^ 31 ≤ w.y + (w.titleHeight - 8).tdiv 2
  titleBottom : RowsFit glyph (w.y + (w.titleHeight - 8).tdiv 2) w.title

theorem ok_content (hx : -2 ^ 31 ≤ x) (hy : -2 ^ 31 ≤ y) :
    Ok (drawAll (fun row : ℕ => drawAll (fun column : ℕ => do
      let pixel ← readAt windowPixels window.canvas (row * maxWidth + column)
      return fb.screenPixel (← i32 (x + column)) (← i32 (y + row)) pixel)
      (List.range window.width.toNat)) (List.range window.height.toNat)) ↔
      x + window.width ≤ 2 ^ 31 ∧ y + window.height ≤ 2 ^ 31 := by
  have hwidth := window.width_mem
  have hheight := window.height_mem
  simp only [ok_drawAll, mem_range]
  constructor
  · intro h
    have hlast := h (window.height.toNat - 1) (by omega) (window.width.toNat - 1) (by omega)
    obtain ⟨_, -, hlast⟩ := ok_bind.mp hlast
    rw [ok_i32_bind, ok_i32_bind] at hlast
    obtain ⟨⟨-, hcolumn⟩, ⟨-, hrow⟩, -⟩ := hlast
    omega
  · rintro ⟨hright, hbottom⟩ row hrow column hcolumn
    have hinside : row * maxWidth + column < windowPixels := by
      simp only [maxWidth, windowPixels, maxHeight]
      omega
    refine ok_bind.mpr ⟨_, readAt_eq_ok.mpr ⟨hinside, rfl⟩, ?_⟩
    rw [ok_i32_bind, ok_i32_bind]
    exact ⟨⟨by omega, by omega⟩, ⟨by omega, by omega⟩, ok_pure _⟩

/-- **A window** can be drawn if and only if it fits. -/
theorem ok_drawWindow {focused : Bool} (hx : InI32 window.x) (hy : InI32 window.y)
    (hbutton : 1 ≤ c.theme.buttonSize) :
    Ok (c.drawWindow glyph window focused) ↔ WindowFits glyph c.theme.buttonSize window := by
  have hwidth := window.width_mem
  have hheight := window.height_mem
  have hborder := window.border_nonneg
  have htitle := window.titleHeight_pos
  have hbuttonTop := tdiv_two (window.titleHeight - c.theme.buttonSize)
  have htextTop := tdiv_two (window.titleHeight - 8)
  rw [InI32] at hx hy
  rw [Compositor.drawWindow]
  simp only [ok_i32_bind]
  constructor
  · rintro ⟨hcontentX, hcontentY, -, houterWidth, -, houterHeight, hright, -, -, -, hbuttonY,
      hdouble, -, hminimize, h⟩
    obtain ⟨content, hcontent, h⟩ := ok_bind.mp h
    simp only [ok_i32_bind] at h
    obtain ⟨htextX, -, htextY, h⟩ := h
    obtain ⟨text, htext, -⟩ := ok_bind.mp h
    obtain ⟨-, hrows⟩ := (ok_content hcontentX.1 hcontentY.1).mp ⟨content, hcontent⟩
    obtain ⟨htitleRight, hrowsFit⟩ := (ok_drawText htextX htextY.1).mp ⟨text, htext⟩
    have hrightLt := hright.2
    have hminimizeLe := hminimize.1
    have hdoubleLt := hdouble.2
    exact ⟨houterWidth.2, houterHeight.2, by omega, hrows, by omega, by omega, hbuttonY.1,
      htitleRight, htextY.1, hrowsFit⟩
  · intro h
    have hw := h.width
    have hh := h.height
    have hr := h.right
    have hb := h.bottom
    have hbuttons := h.buttons
    have hbuttonLeft := h.buttonLeft
    have hbuttonY := h.buttonTop
    have htitleRight := h.titleRight
    have htitleTop := h.titleTop
    refine ⟨⟨by omega, by omega⟩, ⟨by omega, by omega⟩, ⟨by omega, by omega⟩, ⟨by omega, hw⟩,
      ⟨by omega, by omega⟩, ⟨by omega, hh⟩, ⟨by omega, by omega⟩, ⟨by omega, by omega⟩,
      ⟨by omega, by omega⟩, ⟨by omega, by omega⟩, ⟨hbuttonY, by omega⟩, ⟨by omega, by omega⟩,
      ⟨by omega, by omega⟩, ⟨by omega, by omega⟩, ?_⟩
    have hleft : -2 ^ 31 ≤ window.x + window.border := by omega
    have htop : -2 ^ 31 ≤ window.y + window.titleHeight := by omega
    obtain ⟨content, hcontent⟩ := (ok_content hleft htop).mpr ⟨by omega, hb⟩
    have htextX : InI32 (window.x + window.border + 8) := ⟨by omega, by omega⟩
    refine ok_bind.mpr ⟨content, hcontent, ?_⟩
    simp only [ok_i32_bind]
    refine ⟨htextX, ⟨by omega, by omega⟩, ⟨htitleTop, by omega⟩, ?_⟩
    obtain ⟨text, htext⟩ := (ok_drawText htextX htitleTop).mpr ⟨htitleRight, h.titleBottom⟩
    exact ok_bind.mpr ⟨text, htext, ok_pure _⟩

/-! ### Surfaces -/

/-- A surface fits: the screen does not have a negative size, and the pixels have coordinates of 32
bits. -/
def SurfaceFits (fb : Framebuffer) (surface : ExternalSurface) : Prop :=
  (0 < fb.screenWidth ∧ 0 < fb.screenHeight) ∧
    surface.x + min (surface.width : ℤ) fb.screenWidth ≤ 2 ^ 31 ∧
    surface.y + min (surface.height : ℤ) fb.screenHeight ≤ 2 ^ 31

theorem asUsize_of_nonneg {n : ℤ} (h : 0 ≤ n) (hlt : n < 2 ^ 31) : asUsize n = n.toNat := by
  rw [asUsize, Int.emod_eq_of_lt h (by omega)]

theorem asUsize_of_neg {n : ℤ} (h : n < 0) (hmem : InI32 n) : 64001 ≤ asUsize n := by
  rw [InI32] at hmem
  have hadd : n % 2 ^ 64 = n + 2 ^ 64 := by
    rw [← Int.add_emod_right, Int.emod_eq_of_lt (by omega) (by omega)]
  rw [asUsize, hadd]
  omega

/-- **A surface** can be drawn if and only if it fits. -/
theorem ok_drawExternal {surface : ExternalSurface} (hx : InI32 surface.x) (hy : InI32 surface.y)
    (hwidth : c.framebuffer.screenWidth ≠ 0) (hheight : c.framebuffer.screenHeight ≠ 0) :
    Ok (c.drawExternal surface) ↔ SurfaceFits c.framebuffer surface := by
  have hw := surface.width_mem
  have hh := surface.height_mem
  have hpitch := surface.pitch_eq
  have hwmem := screenWidth_mem c.framebuffer
  have hhmem := screenHeight_mem c.framebuffer
  simp only [surfaceMaxWidth, surfaceMaxHeight] at hw hh
  rw [InI32] at hx hy
  rw [Compositor.drawExternal, SurfaceFits]
  simp only [ok_drawAll, mem_range]
  generalize c.framebuffer.screenWidth = screenWidth at *
  generalize c.framebuffer.screenHeight = screenHeight at *
  -- A round that reads outside of the buffer of the client.
  have hfails : ∀ row column : ℕ, 64000 ≤ row * surface.pitch + column → ¬ Ok (do
      let pixel ← readAt (320 * 200) (c.memory surface.address) (row * surface.pitch + column)
      return c.framebuffer.screenPixel (← i32 (surface.x + asI32 column))
        (← i32 (surface.y + asI32 row)) pixel) := fun row column hle hok => by
    obtain ⟨_, hread, -⟩ := ok_bind.mp hok
    have hlt := (readAt_eq_ok.mp hread).1
    omega
  by_cases hwneg : screenWidth < 0
  · have hcolumns := asUsize_of_neg hwneg hwmem
    have hrows : 0 < asUsize (min (surface.height : ℤ) screenHeight) := by
      by_cases hhneg : screenHeight < 0
      · have hlarge := asUsize_of_neg hhneg hhmem
        rw [min_eq_right (by omega)]
        omega
      · rw [asUsize_of_nonneg (by omega) (by omega)]
        omega
    refine iff_of_false (fun h => ?_) (fun h => by omega)
    refine hfails 0 64000 (by omega) (h 0 hrows 64000 ?_)
    rw [min_eq_right (by omega)]
    omega
  by_cases hhneg : screenHeight < 0
  · have hrows := asUsize_of_neg hhneg hhmem
    refine iff_of_false (fun h => ?_) (fun h => by omega)
    refine hfails 64000 0 (Nat.le_add_right_of_le (Nat.le_mul_of_pos_right _ (by omega)))
      (h 64000 ?_ 0 ?_)
    · rw [min_eq_right (by omega)]
      omega
    · rw [asUsize_of_nonneg (by omega) (by omega)]
      omega
  rw [asUsize_of_nonneg (by omega) (by omega), asUsize_of_nonneg (by omega) (by omega)]
  constructor
  · intro h
    have hlast := h ((min (surface.height : ℤ) screenHeight).toNat - 1) (by omega)
      ((min (surface.width : ℤ) screenWidth).toNat - 1) (by omega)
    obtain ⟨_, -, hlast⟩ := ok_bind.mp hlast
    rw [ok_i32_bind, ok_i32_bind, asI32_of_lt (by omega), asI32_of_lt (by omega)] at hlast
    obtain ⟨⟨-, hcolumn⟩, ⟨-, hrow⟩, -⟩ := hlast
    omega
  · rintro ⟨-, hright, hbottom⟩ row hrow column hcolumn
    have hinside : row * surface.pitch + column < 320 * 200 := by
      have hle : row * surface.pitch ≤ row * 320 := Nat.mul_le_mul_left _ (by omega)
      have hrow' : row < 200 := by omega
      by_cases hlast : row = 199
      · subst hlast
        omega
      · omega
    refine ok_bind.mpr ⟨_, readAt_eq_ok.mpr ⟨hinside, rfl⟩, ?_⟩
    rw [ok_i32_bind, ok_i32_bind, asI32_of_lt (by omega), asI32_of_lt (by omega)]
    exact ⟨⟨by omega, by omega⟩, ⟨by omega, by omega⟩, ok_pure _⟩

/-! ### Whole drawings -/

theorem mem_sink {z : ℕ → BitVec 32} {index k : ℕ} {sorted : List ℕ} :
    k ∈ Compositor.sink z index sorted ↔ k = index ∨ k ∈ sorted := by
  induction sorted with
  | nil => simp [Compositor.sink]
  | cons left rest ih =>
    rw [Compositor.sink]
    split
    · rw [mem_cons]
    · rw [mem_cons, ih, mem_cons]
      exact or_left_comm

theorem mem_order {k : ℕ} : k ∈ c.order ↔ k < c.windows.length := by
  have hfold : ∀ (z : ℕ → BitVec 32) (indices sorted : List ℕ),
    k ∈ indices.foldl (fun sorted index =>
      Compositor.sink z index sorted) sorted ↔ k ∈ indices ∨ k ∈ sorted := by
    intro z indices
    induction indices with
    | nil => simp
    | cons index indices ih =>
      intro sorted
      rw [foldl_cons, ih, mem_sink, mem_cons, or_assoc, or_left_comm]
  rw [Compositor.order]
  simp [hfold]

/-- What the types of the source say. -/
structure Typed (c : Compositor) : Prop where
  width : c.framebuffer.width ≠ 0 ∧ c.framebuffer.width < 2 ^ 32
  height : c.framebuffer.height ≠ 0 ∧ c.framebuffer.height < 2 ^ 32
  windows : ∀ window ∈ c.windows, InI32 window.x ∧ InI32 window.y
  external : ∀ surface ∈ c.external, InI32 surface.x ∧ InI32 surface.y

theorem ok_scene (htyped : Typed c) (hbutton : 1 ≤ c.theme.buttonSize) :
    Ok (c.scene glyph) ↔ (∀ window ∈ c.windows, WindowFits glyph c.theme.buttonSize window) ∧
      ∀ surface ∈ c.external, SurfaceFits c.framebuffer surface := by
  have hexternal : Ok (drawAll c.drawExternal c.external) ↔
      ∀ surface ∈ c.external, SurfaceFits c.framebuffer surface := by
    rw [ok_drawAll]
    exact forall₂_congr fun surface hmem => ok_drawExternal (htyped.external surface hmem).1
      (htyped.external surface hmem).2 (asI32_ne_zero htyped.width.1 htyped.width.2)
      (asI32_ne_zero htyped.height.1 htyped.height.2)
  rw [Compositor.scene, ok_bind_of (p := ∀ surface ∈ c.external, SurfaceFits c.framebuffer surface),
    ok_drawAll]
  · refine and_congr_left' ?_
    constructor
    · intro h window hmem
      obtain ⟨k, hk, rfl⟩ := mem_iff_getElem.mp hmem
      have hone := h k (mem_order.mpr hk)
      rw [List.getElem?_eq_getElem hk] at hone
      exact (ok_drawWindow (htyped.windows _ hmem).1 (htyped.windows _ hmem).2 hbutton).mp hone
    · intro h k hk
      rw [List.getElem?_eq_getElem (mem_order.mp hk)]
      have hmem := getElem_mem (mem_order.mp hk)
      exact (ok_drawWindow (htyped.windows _ hmem).1 (htyped.windows _ hmem).2 hbutton).mpr
        (h _ hmem)
  · intro windows _
    rw [ok_bind_of (p := True), and_true, hexternal]
    exact fun _ _ => iff_true_intro (ok_pure _)

/-- **The condition** for a full redraw. -/
structure ComposeFits (glyph : Char → ℕ → BitVec 8) (c : Compositor) : Prop where
  screen : ScreenFits c.framebuffer
  windows : ∀ window ∈ c.windows, WindowFits glyph c.theme.buttonSize window
  external : ∀ surface ∈ c.external, SurfaceFits c.framebuffer surface
  cursor : CursorFits c

/-- The pointer is on the screen. -/
def OnScreen (c : Compositor) : Prop :=
  (0 ≤ c.pointerX ∧ c.pointerX < c.framebuffer.width) ∧
    (0 ≤ c.pointerY ∧ c.pointerY < c.framebuffer.height)

instance (c : Compositor) : Decidable (OnScreen c) := inferInstanceAs (Decidable (_ ∧ _))

theorem ok_presentAll (hfits : ScreenFits c.framebuffer) :
    Ok (c.presentRect ⟨0, 0, c.framebuffer.screenWidth, c.framebuffer.screenHeight⟩) := by
  refine ok_presentRect hfits ?_ ?_
  · dsimp only
    rw [zero_add]
    exact screenWidth_mem _
  · dsimp only
    rw [zero_add]
    exact screenHeight_mem _

theorem screenFits_of_scene {writes : List Write} (h : c.scene glyph = .ok writes)
    (hinside : ∀ w ∈ writes, w.1 < screenPixels) : ScreenFits c.framebuffer := by
  simp only [Compositor.scene, bind_eq_ok, pure_eq_ok] at h
  obtain ⟨_, -, _, -, rfl⟩ := h
  exact screenFits_of_fill fun w hw => hinside w
    (mem_append_left _ (mem_append_left _ (mem_append_left _ hw)))

/-- **A full redraw** goes on if and only if everything fits. -/
theorem ok_compose (htyped : Typed c) (hpointer : OnScreen c) (hbutton : 1 ≤ c.theme.buttonSize)
    (hcursor : 1 ≤ c.theme.cursorSize) : Ok (c.compose glyph) ↔ ComposeFits glyph c := by
  rw [Compositor.compose]
  constructor
  · intro h
    obtain ⟨writes, hwrites, h⟩ := ok_bind.mp h
    obtain ⟨backbuffer, hback, h⟩ := ok_bind.mp h
    obtain ⟨drawn, hdrawn, h⟩ := ok_bind.mp h
    obtain ⟨hwindows, hexternal⟩ := (ok_scene htyped hbutton).mp ⟨writes, hwrites⟩
    have hscreen := screenFits_of_scene hwrites (writeAll_eq_ok.mp hback).1
    have hfits := (ok_drawCursorAndSave (c := { c with backbuffer := backbuffer }) hscreen
      hpointer.1.1 hpointer.2.1 hcursor).mp ⟨drawn, hdrawn⟩
    exact ⟨hscreen, hwindows, hexternal, ⟨hfits.right, hfits.bottom, hfits.width, hfits.height,
      hfits.saved⟩⟩
  · intro h
    obtain ⟨writes, hwrites⟩ := (ok_scene htyped hbutton).mpr ⟨h.windows, h.external⟩
    have hinside : ∀ w ∈ writes, w.1 < screenPixels := fun w hw =>
      (clipped_scene hwrites w hw).lt h.screen
    obtain ⟨drawn, hdrawn⟩ := (ok_drawCursorAndSave
      (c := { c with backbuffer := paint writes c.backbuffer }) h.screen hpointer.1.1 hpointer.2.1
      hcursor).mpr ⟨h.cursor.right, h.cursor.bottom, h.cursor.width, h.cursor.height,
        h.cursor.saved⟩
    obtain ⟨_, _, -, -, -, -, hdrawnEq⟩ := drawCursorAndSave_eq_ok hdrawn
    have hsame : drawn.framebuffer = c.framebuffer := hdrawnEq ▸ rfl
    obtain ⟨shown, hshown⟩ := ok_presentAll (hsame ▸ h.screen)
    exact ok_bind.mpr ⟨writes, hwrites, ok_bind.mpr ⟨_, writeAll_eq_ok.mpr ⟨hinside, rfl⟩,
      ok_bind.mpr ⟨_, hdrawn, ok_bind.mpr ⟨shown, hshown, ok_pure _⟩⟩⟩⟩

/-! ### The cursor only -/

/-- The rectangle of the cursor, where the pointer is. -/
def cursorRectAt (fb : Framebuffer) (size x y : ℤ) : Rect :=
  ⟨x, y, min (x + size) fb.screenWidth - x, min (y + size) fb.screenHeight - y⟩

/-- **The cursor was drawn** with the pointer on the screen, and the screen was shown before. -/
structure Placed (c : Compositor) : Prop where
  screen : ScreenFits c.framebuffer
  rect : ∃ x y, 0 ≤ x ∧ 0 ≤ y ∧ c.cursorRect = cursorRectAt c.framebuffer c.theme.cursorSize x y

/-- **The condition** for a redraw of the cursor. -/
structure UpdateFits (glyph : Char → ℕ → BitVec 8) (c : Compositor) : Prop where
  absent : c.cursorPresent = false → ComposeFits glyph c
  cursor : c.cursorPresent = true → CursorFits c
  behind : c.cursorPresent = true →
    c.cursorRect.width ≤ 0 ∨ c.cursorRect.height ≤ 0 ∨
      c.cursorRect.width * c.cursorRect.height ≤ 1024

theorem isEmpty_iff {r : Rect} : r.isEmpty = true ↔ r.width ≤ 0 ∨ r.height ≤ 0 := by
  simp [Rect.isEmpty]

theorem forall_grid_lt {width height size : ℕ} (hwidth : 0 < width) (hheight : 0 < height) :
    (∀ row < height, ∀ column < width, row * width + column < size) ↔ height * width ≤ size := by
  constructor
  · intro h
    have hlast := h (height - 1) (by omega) (width - 1) (by omega)
    have hmul : (height - 1) * width + width = height * width := by
      rw [← Nat.succ_mul]
      congr 1
      omega
    omega
  · intro h row hrow column hcolumn
    have hmul : (row + 1) * width ≤ height * width := Nat.mul_le_mul_right _ hrow
    rw [Nat.succ_mul] at hmul
    omega

theorem add_lt_of_lt_toNat {x size n : ℤ} {k : ℕ} (h : k < (min (x + size) n - x).toNat) :
    x + k < n := by
  omega

/-- What was saved can be put back if it has room. -/
theorem ok_blitSaved (hplaced : Placed c) :
    Ok (c.blitSaved c.cursorRect) ↔ c.cursorRect.width ≤ 0 ∨ c.cursorRect.height ≤ 0 ∨
      c.cursorRect.width * c.cursorRect.height ≤ 1024 := by
  obtain ⟨x, y, hx, hy, hrect⟩ := hplaced.rect
  rw [Compositor.blitSaved]
  split
  · rename_i hempty
    refine iff_of_true (ok_ok _) ?_
    rw [← or_assoc]
    exact Or.inl (isEmpty_iff.mp hempty)
  · rename_i hsome
    rw [isEmpty_iff, not_or, not_le, not_le] at hsome
    have hwidth : 0 < c.cursorRect.width.toNat := by omega
    have hheight : 0 < c.cursorRect.height.toNat := by omega
    have hgrid : Ok (c.restoreBehind c.cursorRect) ↔
        c.cursorRect.height.toNat * c.cursorRect.width.toNat ≤ 1024 := by
      rw [Compositor.restoreBehind, ok_grid]
      simp only [mem_range]
      exact forall_grid_lt hwidth hheight
    have hcast : c.cursorRect.height.toNat * c.cursorRect.width.toNat ≤ 1024 ↔
        c.cursorRect.width * c.cursorRect.height ≤ 1024 := by
      rw [mul_comm, ← Int.ofNat_le, Int.natCast_mul, Int.toNat_of_nonneg hsome.1.le,
        Int.toNat_of_nonneg hsome.2.le]
      rfl
    rw [ok_bind_of (p := True), and_true, hgrid, hcast]
    · exact ⟨fun h => Or.inr (Or.inr h), fun h => by omega⟩
    · intro writes hwrites
      refine iff_true_intro (ok_bind.mpr ⟨_, writeAll_eq_ok.mpr ⟨fun w hw => ?_, rfl⟩, ok_pure _⟩)
      rw [Compositor.restoreBehind] at hwrites
      obtain ⟨row, hrow, column, hcolumn, rfl⟩ := (mem_grid hwrites).mp hw
      rw [mem_range] at hrow hcolumn
      have hrectX : c.cursorRect.x = x := congrArg Rect.x hrect
      have hrectY : c.cursorRect.y = y := congrArg Rect.y hrect
      have hlt : backIndex (x + column) (y + row) < screenPixels :=
        backIndex_lt hplaced.screen
          ⟨by omega, add_lt_of_lt_toNat (hrect ▸ hcolumn : column < _)⟩
          ⟨by omega, add_lt_of_lt_toNat (hrect ▸ hrow : row < _)⟩
      simp only [backIndex] at hlt
      rw [hrectX, hrectY]
      have htoNat : (y + row).toNat = y.toNat + row := by omega
      rw [htoNat] at hlt
      omega

theorem i32_bind_of {α : Type} {n : ℤ} {f : ℤ → Except Stop α} (h : InI32 n) :
    i32 n >>= f = f n := by
  rw [i32_eq_ok.mpr ⟨h, rfl⟩]
  rfl

/-- The union of two rectangles of the cursor. -/
theorem union_cursorRectAt (fb : Framebuffer) {size x y x' y' : ℤ} (hsize : 1 ≤ size) (hx : 0 ≤ x)
    (hy : 0 ≤ y) (hx' : 0 ≤ x') (hy' : 0 ≤ y') :
    ∃ rect, (cursorRectAt fb size x y).union (cursorRectAt fb size x' y') = .ok rect ∧
      InI32 (rect.x + rect.width) ∧ InI32 (rect.y + rect.height) := by
  have hw := screenWidth_mem fb
  have hh := screenHeight_mem fb
  have hsum : ∀ {x n : ℤ}, 0 ≤ x → InI32 n → InI32 (x + (min (x + size) n - x)) := by
    intro x n hx hn
    rw [InI32] at hn ⊢
    omega
  by_cases hempty : (cursorRectAt fb size x y).isEmpty = true
  · exact ⟨_, by rw [Rect.union, if_pos hempty], hsum hx' hw, hsum hy' hh⟩
  by_cases hempty' : (cursorRectAt fb size x' y').isEmpty = true
  · exact ⟨_, by rw [Rect.union, if_neg hempty, if_pos hempty'], hsum hx hw, hsum hy hh⟩
  rw [Rect.union, if_neg hempty, if_neg hempty']
  rw [isEmpty_iff, not_or, not_le, not_le] at hempty hempty'
  simp only [cursorRectAt] at hempty hempty' ⊢
  have hsides : ∀ {a b n : ℤ}, 0 ≤ a → 0 ≤ b → InI32 n → 0 < min (a + size) n - a →
      0 < min (b + size) n - b →
      InI32 (max (a + (min (a + size) n - a)) (b + (min (b + size) n - b)) - min a b) ∧
        InI32 (min a b +
          (max (a + (min (a + size) n - a)) (b + (min (b + size) n - b)) - min a b)) := by
    intro a b n ha hb hn hfirst hsecond
    rw [InI32] at hn
    exact ⟨⟨by omega, by omega⟩, ⟨by omega, by omega⟩⟩
  have hwidth := hsides hx hx' hw hempty.1 hempty'.1
  have hheight := hsides hy hy' hh hempty.2 hempty'.2
  rw [i32_bind_of (hsum hx hw), i32_bind_of (hsum hx' hw), i32_bind_of (hsum hy hh),
    i32_bind_of (hsum hy' hh)]
  rw [i32_bind_of hwidth.1, i32_bind_of hheight.1]
  exact ⟨_, rfl, hwidth.2, hheight.2⟩

theorem blitSaved_eq_ok {rect : Rect} {c' : Compositor} (h : c.blitSaved rect = .ok c') :
    ∃ backbuffer, c' = { c with backbuffer := backbuffer } := by
  rw [Compositor.blitSaved] at h
  split at h
  · cases h
    exact ⟨c.backbuffer, rfl⟩
  · obtain ⟨writes, -, h⟩ := bind_eq_ok.mp h
    obtain ⟨backbuffer, -, h⟩ := bind_eq_ok.mp h
    exact ⟨backbuffer, (pure_eq_ok.mp h).symm⟩

theorem updateCursorOnly_of_absent (h : c.cursorPresent = false) :
    c.updateCursorOnly glyph = c.compose glyph := by
  rw [Compositor.updateCursorOnly, h, Bool.not_false, if_pos rfl]

theorem updateCursorOnly_of_present (h : c.cursorPresent = true) :
    c.updateCursorOnly glyph = (do
      let restored ← c.blitSaved c.cursorRect
      let drawn ← restored.drawCursorAndSave
      drawn.presentRect (← c.cursorRect.union drawn.cursorRect)) := by
  rw [Compositor.updateCursorOnly, h, Bool.not_true, if_neg Bool.false_ne_true]
  dsimp only
  split
  · rename_i hempty
    rw [Compositor.blitSaved, if_pos hempty]
  · rfl

theorem cursorFits_backbuffer {backbuffer : ℕ → Pixel} :
    CursorFits { c with backbuffer := backbuffer } ↔ CursorFits c :=
  ⟨fun h => ⟨h.right, h.bottom, h.width, h.height, h.saved⟩,
    fun h => ⟨h.right, h.bottom, h.width, h.height, h.saved⟩⟩

theorem ok_presentDamage (hplaced : Placed c) (hpointer : OnScreen c)
    (hcursor : 1 ≤ c.theme.cursorSize) {backbuffer : ℕ → Pixel} {drawn : Compositor}
    (h : Compositor.drawCursorAndSave { c with backbuffer := backbuffer } = .ok drawn) :
    Ok (do drawn.presentRect (← c.cursorRect.union drawn.cursorRect)) := by
  obtain ⟨x, y, hx, hy, hrect⟩ := hplaced.rect
  obtain ⟨_, _, -, -, -, -, hdrawn⟩ := drawCursorAndSave_eq_ok h
  dsimp only at hdrawn
  rw [max_eq_left hpointer.1.1, max_eq_left hpointer.2.1] at hdrawn
  obtain ⟨rect, hunion, hright, hbottom⟩ := union_cursorRectAt c.framebuffer hcursor hx hy
    hpointer.1.1 hpointer.2.1
  have hsame : drawn.framebuffer = c.framebuffer := hdrawn ▸ rfl
  have hnew : drawn.cursorRect =
      cursorRectAt c.framebuffer c.theme.cursorSize c.pointerX c.pointerY := hdrawn ▸ rfl
  rw [← hrect, ← hnew] at hunion
  exact ok_bind.mpr ⟨rect, hunion, ok_presentRect (hsame ▸ hplaced.screen) hright hbottom⟩

/-- **A redraw of the cursor** goes on if and only if the cursor fits, and so does what was behind
it. -/
theorem ok_updateCursorOnly (htyped : Typed c) (hpointer : OnScreen c)
    (hbutton : 1 ≤ c.theme.buttonSize) (hcursor : 1 ≤ c.theme.cursorSize)
    (hplaced : c.cursorPresent = true → Placed c) :
    Ok (c.updateCursorOnly glyph) ↔ UpdateFits glyph c := by
  cases hpresent : c.cursorPresent with
  | false =>
    rw [updateCursorOnly_of_absent hpresent, ok_compose htyped hpointer hbutton hcursor]
    exact ⟨fun h => ⟨fun _ => h, by simp [hpresent], by simp [hpresent]⟩,
      fun h => h.absent hpresent⟩
  | true =>
    have hplaced := hplaced hpresent
    rw [updateCursorOnly_of_present hpresent, ok_bind_of (p := CursorFits c), ok_blitSaved hplaced]
    · exact ⟨fun h => ⟨by simp [hpresent], fun _ => h.2, fun _ => h.1⟩,
        fun h => ⟨h.behind hpresent, h.cursor hpresent⟩⟩
    · intro c' hc'
      obtain ⟨backbuffer, rfl⟩ := blitSaved_eq_ok hc'
      rw [ok_bind_of (p := True), and_true]
      · exact (ok_drawCursorAndSave (c := { c with backbuffer := backbuffer }) hplaced.screen
          hpointer.1.1 hpointer.2.1 hcursor).trans cursorFits_backbuffer
      · exact fun drawn hdrawn => iff_true_intro (ok_presentDamage hplaced hpointer hcursor hdrawn)

end Windows

/-! ### Reached states -/

structure FramebufferInfo where
  address : UInt64
  width : UInt32
  height : UInt32
  pitch : UInt32
  redShift : UInt8
  greenShift : UInt8
  blueShift : UInt8

/-- `map_framebuffer`, with what the kernel tells about the screen. This crate is built without
overflow checks. -/
def mapFramebuffer (info : FramebufferInfo) : Option Framebuffer :=
  if info.address = 0 ∨ info.width = 0 ∨ info.height = 0 ∨ info.pitch < info.width * 4 then none
  else some {
    width := info.width.toNat
    height := info.height.toNat
    pitchWords := info.pitch.toNat / 4
    redShift := info.redShift.toNat
    greenShift := info.greenShift.toNat
    blueShift := info.blueShift.toNat }

/-- What stays between two drawings. -/
structure SameDrawing (c c' : Compositor) : Prop where
  framebuffer : c'.framebuffer = c.framebuffer
  theme : c'.theme = c.theme
  cursorRect : c'.cursorRect = c.cursorRect
  cursorPresent : c'.cursorPresent = c.cursorPresent

/-- The states of a window manager: it draws, and between two drawings there are any changes of the
windows, of the surfaces and of the pointer. -/
inductive Reached (glyph : Char → ℕ → BitVec 8) (fb : Framebuffer) (theme : WindowTheme) :
    Compositor → Prop
  | new (screen : ℕ → Pixel) (windows : List Window) :
    Reached glyph fb theme (.new fb screen theme windows)
  | change {c c' : Compositor} (h : Reached glyph fb theme c) (hsame : SameDrawing c c')
    (hx : 0 ≤ c'.pointerX) (hy : 0 ≤ c'.pointerY) : Reached glyph fb theme c'
  | compose {c c' : Compositor} (h : Reached glyph fb theme c) (hdrawn : c.compose glyph = .ok c') :
    Reached glyph fb theme c'
  | updateCursorOnly {c c' : Compositor} (h : Reached glyph fb theme c)
    (hdrawn : c.updateCursorOnly glyph = .ok c') : Reached glyph fb theme c'

section Reached

variable {c c' : Compositor} {glyph : Char → ℕ → BitVec 8} {fb : Framebuffer} {theme : WindowTheme}

theorem presentRect_eq_ok {rect : Rect} (h : c.presentRect rect = .ok c') :
    ∃ screen, c' = { c with screen := screen } := by
  rw [Compositor.presentRect] at h
  split at h
  · cases h
    exact ⟨c.screen, rfl⟩
  · obtain ⟨_, -, h⟩ := bind_eq_ok.mp h
    obtain ⟨_, -, h⟩ := bind_eq_ok.mp h
    dsimp only at h
    split at h
    · exact ⟨c.screen, (pure_eq_ok.mp h).symm⟩
    · obtain ⟨_, -, h⟩ := bind_eq_ok.mp h
      exact ⟨_, (pure_eq_ok.mp h).symm⟩

theorem mapFramebuffer_bounds {info : FramebufferInfo} (h : mapFramebuffer info = some fb) :
    (fb.width ≠ 0 ∧ fb.width < 2 ^ 32) ∧ (fb.height ≠ 0 ∧ fb.height < 2 ^ 32) := by
  rw [mapFramebuffer] at h
  obtain ⟨hsome, rfl⟩ := Option.ite_none_left_eq_some.mp h |>.imp id Option.some.inj
  simp only [not_or] at hsome
  exact ⟨⟨fun hzero => hsome.2.1 (UInt32.toNat_inj.mp hzero), info.width.toNat_lt⟩,
    ⟨fun hzero => hsome.2.2.1 (UInt32.toNat_inj.mp hzero), info.height.toNat_lt⟩⟩

theorem compose_eq_ok (h : c.compose glyph = .ok c') :
    ∃ writes drawn shown, c.scene glyph = .ok writes ∧ (∀ w ∈ writes, w.1 < screenPixels) ∧
      Compositor.drawCursorAndSave { c with backbuffer := paint writes c.backbuffer } = .ok drawn ∧
      drawn.presentRect ⟨0, 0, c.framebuffer.screenWidth, c.framebuffer.screenHeight⟩ = .ok shown ∧
      c' = { shown with cursorPresent := true } := by
  rw [Compositor.compose] at h
  obtain ⟨writes, hwrites, h⟩ := bind_eq_ok.mp h
  obtain ⟨_, hback, h⟩ := bind_eq_ok.mp h
  obtain ⟨hinside, rfl⟩ := writeAll_eq_ok.mp hback
  obtain ⟨drawn, hdrawn, h⟩ := bind_eq_ok.mp h
  obtain ⟨shown, hshown, h⟩ := bind_eq_ok.mp h
  have hsame : drawn.framebuffer = c.framebuffer := by
    obtain ⟨_, _, -, -, -, -, rfl⟩ := drawCursorAndSave_eq_ok hdrawn
    rfl
  rw [hsame] at hshown
  exact ⟨writes, drawn, shown, hwrites, hinside, hdrawn, hshown, (pure_eq_ok.mp h).symm⟩

theorem updateCursorOnly_eq_ok (hpresent : c.cursorPresent = true)
    (h : c.updateCursorOnly glyph = .ok c') :
    ∃ restored drawn damage, c.blitSaved c.cursorRect = .ok restored ∧
      restored.drawCursorAndSave = .ok drawn ∧ c.cursorRect.union drawn.cursorRect = .ok damage ∧
      drawn.presentRect damage = .ok c' := by
  rw [updateCursorOnly_of_present hpresent] at h
  obtain ⟨restored, hrestored, h⟩ := bind_eq_ok.mp h
  obtain ⟨drawn, hdrawn, h⟩ := bind_eq_ok.mp h
  obtain ⟨damage, hdamage, h⟩ := bind_eq_ok.mp h
  exact ⟨restored, drawn, damage, hrestored, hdrawn, hdamage, h⟩

theorem drawCursorAndSave_cursorRect (hx : 0 ≤ c.pointerX) (hy : 0 ≤ c.pointerY)
    (h : c.drawCursorAndSave = .ok c') :
    c'.cursorRect = cursorRectAt c.framebuffer c.theme.cursorSize c.pointerX c.pointerY := by
  obtain ⟨_, _, -, -, -, -, rfl⟩ := drawCursorAndSave_eq_ok h
  dsimp only
  rw [max_eq_left hx, max_eq_left hy]
  rfl

/-- What holds of a window manager between two drawings. -/
structure Settled (fb : Framebuffer) (theme : WindowTheme) (c : Compositor) : Prop where
  framebuffer : c.framebuffer = fb
  theme : c.theme = theme
  pointerX : 0 ≤ c.pointerX
  pointerY : 0 ≤ c.pointerY
  placed : c.cursorPresent = true → Placed c

theorem Settled.compose (hs : Settled fb theme c) (h : c.compose glyph = .ok c') :
    Settled fb theme c' := by
  obtain ⟨writes, drawn, shown, hwrites, hinside, hdrawn, hshown, rfl⟩ := compose_eq_ok h
  obtain ⟨screen, rfl⟩ := presentRect_eq_ok hshown
  have hrect := drawCursorAndSave_cursorRect
    (c := { c with backbuffer := paint writes c.backbuffer })
    hs.pointerX hs.pointerY hdrawn
  obtain ⟨_, _, -, -, -, -, rfl⟩ := drawCursorAndSave_eq_ok hdrawn
  exact ⟨hs.framebuffer, hs.theme, hs.pointerX, hs.pointerY, fun _ =>
    ⟨screenFits_of_scene hwrites hinside, c.pointerX, c.pointerY, hs.pointerX, hs.pointerY, hrect⟩⟩

theorem Settled.updateCursorOnly (hs : Settled fb theme c) (h : c.updateCursorOnly glyph = .ok c') :
    Settled fb theme c' := by
  cases hpresent : c.cursorPresent with
  | false => exact hs.compose (updateCursorOnly_of_absent hpresent ▸ h)
  | true =>
    obtain ⟨restored, drawn, damage, hrestored, hdrawn, -, hshown⟩ :=
      updateCursorOnly_eq_ok hpresent h
    obtain ⟨screen, rfl⟩ := presentRect_eq_ok hshown
    obtain ⟨backbuffer, rfl⟩ := blitSaved_eq_ok hrestored
    have hrect := drawCursorAndSave_cursorRect
      (c := { c with backbuffer := backbuffer }) hs.pointerX
      hs.pointerY hdrawn
    obtain ⟨_, _, -, -, -, -, rfl⟩ := drawCursorAndSave_eq_ok hdrawn
    exact ⟨hs.framebuffer, hs.theme, hs.pointerX, hs.pointerY, fun _ =>
      ⟨(hs.placed hpresent).screen, c.pointerX, c.pointerY, hs.pointerX, hs.pointerY, hrect⟩⟩

theorem Reached.settled (h : Reached glyph fb theme c) : Settled fb theme c := by
  induction h with
  | new screen windows =>
    exact ⟨rfl, rfl, Int.natCast_nonneg 32, Int.natCast_nonneg 32,
      fun h => absurd h Bool.false_ne_true⟩
  | change _ hsame hx hy ih =>
    refine ⟨hsame.framebuffer.trans ih.framebuffer, hsame.theme.trans ih.theme, hx, hy, fun h => ?_⟩
    obtain ⟨hscreen, x, y, hx, hy, hrect⟩ := ih.placed (hsame.cursorPresent ▸ h)
    exact ⟨hsame.framebuffer ▸ hscreen, x, y, hx, hy, by
      rw [hsame.cursorRect, hsame.framebuffer, hsame.theme, hrect]⟩
  | compose _ hdrawn ih => exact ih.compose hdrawn
  | updateCursorOnly _ hdrawn ih => exact ih.updateCursorOnly hdrawn

/-- **Headline.** A theme and a screen do not break the window manager if and only if everything
that is drawn fits. Without the cursor, what is drawn is everything. -/
theorem draws_iff {css : List UInt8} {info : FramebufferInfo} (hmap : mapFramebuffer info = some fb)
    (hreached : Reached glyph fb (applyCss .defaults css) c) (hpointer : OnScreen c)
    (hwindows : ∀ window ∈ c.windows, InI32 window.x ∧ InI32 window.y)
    (hexternal : ∀ surface ∈ c.external, InI32 surface.x ∧ InI32 surface.y) :
    (Ok (c.compose glyph) ↔ ComposeFits glyph c) ∧
      (Ok (c.updateCursorOnly glyph) ↔ UpdateFits glyph c) := by
  obtain ⟨hfb, htheme, -, -, hplaced⟩ := hreached.settled
  have hsized := applyCss_sized .defaults css
  rw [← htheme] at hsized
  have htyped : Typed c := by
    subst hfb
    exact ⟨(mapFramebuffer_bounds hmap).1, (mapFramebuffer_bounds hmap).2, hwindows, hexternal⟩
  exact ⟨ok_compose htyped hpointer hsized.buttonSize.1 hsized.cursorSize.1,
    ok_updateCursorOnly htyped hpointer hsized.buttonSize.1 hsized.cursorSize.1 hplaced⟩

end Reached

/-- A screen of 64 by 64. -/
def smallScreen : FramebufferInfo := ⟨1, 64, 64, 256, 16, 8, 0⟩

/-- The screen of 64 by 64, once it is mapped. -/
def smallFramebuffer : Framebuffer := ⟨64, 64, 64, 16, 8, 0⟩

/-- `#cursor{size: 33px;}` -/
def largeCursor : List UInt8 :=
  [35, 99, 117, 114, 115, 111, 114, 123, 115, 105, 122, 101, 58, 32, 51, 51, 112, 120, 59, 125]

/-- The window manager when it begins, with a style sheet and the pointer in a corner. -/
def inCorner (css : List UInt8) : Compositor :=
  { Compositor.new smallFramebuffer (fun _ => 0) (applyCss .defaults css) [] with
    pointerX := 0
    pointerY := 0 }

theorem reached_inCorner (glyph : Char → ℕ → BitVec 8) (css : List UInt8) :
    Reached glyph smallFramebuffer (applyCss .defaults css) (inCorner css) :=
  .change (.new (fun _ => 0) []) ⟨rfl, rfl, rfl, rfl⟩ (Int.le_refl 0) (Int.le_refl 0)

theorem draws_iff_sample :
    Ok ((inCorner []).compose fun _ _ => 0) ∧ Ok ((inCorner []).updateCursorOnly fun _ _ => 0) := by
  have hmap : mapFramebuffer smallScreen = some smallFramebuffer := by decide +kernel
  have hiff := draws_iff hmap (reached_inCorner (fun _ _ => 0) []) (by decide +kernel)
    (fun _ h => absurd h not_mem_nil) (fun _ h => absurd h not_mem_nil)
  have hfits : ComposeFits (fun _ _ => 0) (inCorner []) :=
    ⟨by decide +kernel, fun _ h => absurd h not_mem_nil, fun _ h => absurd h not_mem_nil,
      by decide +kernel, by decide +kernel, by decide +kernel, by decide +kernel, by decide +kernel⟩
  exact ⟨hiff.1.mpr hfits, hiff.2.mpr ⟨fun _ => hfits, fun h => absurd h Bool.false_ne_true,
    fun h => absurd h Bool.false_ne_true⟩⟩

/-- What is behind a cursor of 33 pixels is saved outside of its buffer. -/
theorem largeCursor_stops :
    mapFramebuffer smallScreen = some smallFramebuffer ∧ OnScreen (inCorner largeCursor) ∧
      Reached (fun _ _ => 0) smallFramebuffer (applyCss .defaults largeCursor)
        (inCorner largeCursor) ∧ ¬ Ok ((inCorner largeCursor).compose fun _ _ => 0) := by
  have hnone : ((inCorner largeCursor).compose fun _ _ => 0).toOption.isSome = false := by
    decide +kernel
  refine ⟨by decide +kernel, by decide +kernel, reached_inCorner _ _, ?_⟩
  rintro ⟨drawn, hdrawn⟩
  rw [hdrawn] at hnone
  cases hnone

end ImagineOS.Display
