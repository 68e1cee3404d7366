import ImagineOS.Display.Redraw

/-!
# Display: what is seen at a place

A full redraw draws the desktop, the windows by their `z`, and then the surfaces by their age. Every
one of them writes to the places of the pixels that it has on the screen (`mem_drawWindow_map`,
`mem_drawExternal_map`), so what is seen at a place belongs to the last one that has a pixel there
(`topmost_eq`).
-/

namespace ImagineOS.Display

open List

/-- What is drawn over the desktop. -/
inductive Target
  | window (index : ℕ)
  | surface (id : ℕ)
  deriving DecidableEq

namespace Compositor

/-! ### Layers -/

/-- What each of some things draws. -/
def drawEach {β : Type} (f : β → Except Stop (List Write)) :
    List β → Except Stop (List (β × List Write))
  | [] => .ok []
  | x :: xs => do return (x, ← f x) :: (← drawEach f xs)

section Font

variable (glyph : Char → ℕ → BitVec 8)

/-- The window with an index is drawn. -/
def drawIndex (c : Compositor) (index : ℕ) : Except Stop (List Write) :=
  match c.windows[index]? with
  | none => .ok []
  | some window => c.drawWindow glyph window (index == c.focused)

/-- What `compose` draws before the cursor, and what it belongs to. -/
def layers (c : Compositor) : Except Stop (List (Option Target × List Write)) := do
  let fb := c.framebuffer
  let windows ← drawEach (c.drawIndex glyph) c.order
  let external ← drawEach c.drawExternal c.external
  return (none, fb.screenFill 0 0 fb.screenWidth fb.screenHeight (fb.color c.theme.desktop) ++
      c.drawDesktopBar) :: (windows.map fun layer => (some (.window layer.1), layer.2)) ++
    external.map fun layer => (some (.surface layer.1.id), layer.2)

end Font

end Compositor

/-- What is seen at a place of the back buffer; it is nothing where only the desktop is. -/
def topmost (layers : List (Option Target × List Write)) (index : ℕ) : Option Target :=
  (topLayer index layers).bind Prod.fst

section Layers

variable {c c' : Compositor} {glyph : Char → ℕ → BitVec 8} {writes : List Write}
  {layers : List (Option Target × List Write)}

theorem drawEach_eq_ok {β : Type} {f : β → Except Stop (List Write)} {l : List β} :
    drawAll f l = .ok writes ↔
      ∃ each, Compositor.drawEach f l = .ok each ∧ writes = each.flatMap Prod.snd := by
  induction l generalizing writes with
  | nil => simp [drawAll, Compositor.drawEach, eq_comm]
  | cons x xs ih =>
    simp only [drawAll, Compositor.drawEach, bind_eq_ok, pure_eq_ok, ih]
    constructor
    · rintro ⟨first, hfirst, rest, ⟨each, heach, rfl⟩, rfl⟩
      exact ⟨_, ⟨first, hfirst, each, heach, rfl⟩, rfl⟩
    · rintro ⟨_, ⟨first, hfirst, each, heach, rfl⟩, rfl⟩
      exact ⟨first, hfirst, _, ⟨each, heach, rfl⟩, rfl⟩

/-- **The layers** are what is drawn. -/
theorem scene_eq_layers : c.scene glyph = .ok writes ↔
    ∃ layers, c.layers glyph = .ok layers ∧ writes = layers.flatMap Prod.snd := by
  simp only [Compositor.scene, Compositor.layers, bind_eq_ok, pure_eq_ok, drawEach_eq_ok]
  constructor
  · rintro ⟨_, ⟨windows, hwindows, rfl⟩, _, ⟨external, hexternal, rfl⟩, rfl⟩
    refine ⟨_, ⟨windows, hwindows, external, hexternal, rfl⟩, ?_⟩
    simp [flatMap_map, append_assoc]
  · rintro ⟨_, ⟨windows, hwindows, external, hexternal, rfl⟩, rfl⟩
    refine ⟨_, ⟨windows, hwindows, rfl⟩, _, ⟨external, hexternal, rfl⟩, ?_⟩
    simp [flatMap_map, append_assoc]

theorem compose_layers (h : c.compose glyph = .ok c') :
    ∃ layers, c.layers glyph = .ok layers ∧ ScreenFits c.framebuffer := by
  rw [Compositor.compose, bind_eq_ok] at h
  obtain ⟨writes, hscene, h⟩ := h
  obtain ⟨_, hback, -⟩ := bind_eq_ok.mp h
  obtain ⟨layers, hlayers, rfl⟩ := scene_eq_layers.mp hscene
  exact ⟨layers, hlayers, screenFits_of_scene hscene (writeAll_eq_ok.mp hback).1⟩

end Layers

/-! ### Places -/

/-- A place of the back buffer is that of a pixel on the screen that has a property. -/
def At (fb : Framebuffer) (index : ℕ) (p : ℤ → ℤ → Prop) : Prop :=
  ∃ x y, (0 ≤ x ∧ x < fb.screenWidth) ∧ (0 ≤ y ∧ y < fb.screenHeight) ∧
    index = backIndex x y ∧ p x y

namespace Window

/-- Where a click finds a window. -/
def frame (w : Window) : Rect :=
  ⟨w.x, w.y, w.width + 2 * w.border, w.height + w.titleHeight + w.border⟩

/-- The button to close it. -/
def closeButton (size : ℤ) (w : Window) : Rect :=
  ⟨w.x + (w.width + 2 * w.border) - size - 3, w.y + (w.titleHeight - size).tdiv 2, size, size⟩

/-- The button to minimize it. -/
def minimizeButton (size : ℤ) (w : Window) : Rect :=
  ⟨w.x + (w.width + 2 * w.border) - size * 2 - 7, w.y + (w.titleHeight - size).tdiv 2, size, size⟩

end Window

/-- A pixel of a text that is drawn. -/
def TextHas (glyph : Char → ℕ → BitVec 8) (text : List Char) (left top x y : ℤ) : Prop :=
  ∃ (k : ℕ) (character : Char), text[k]? = some character ∧ ∃ row < 8, ∃ column < 8,
    (glyph character row).getMsbD column = true ∧ x = left + 9 * k + column ∧ y = top + row

/-- What is drawn of a window: the frame and what is in it, the buttons and the title. -/
def Window.Has (glyph : Char → ℕ → BitVec 8) (button : ℤ) (w : Window) (x y : ℤ) : Prop :=
  w.frame.Has x y ∨ (w.closeButton button).Has x y ∨ (w.minimizeButton button).Has x y ∨
    TextHas glyph w.title (w.x + w.border + 8) (w.y + (w.titleHeight - 8).tdiv 2) x y

namespace ExternalSurface

/-- Where a click finds a surface. -/
def frame (s : ExternalSurface) : Rect := ⟨s.x, s.y, s.width, s.height⟩

/-- What is drawn of it: not more than the size of the screen. -/
def drawnFrame (fb : Framebuffer) (s : ExternalSurface) : Rect :=
  ⟨s.x, s.y, min (s.width : ℤ) fb.screenWidth, min (s.height : ℤ) fb.screenHeight⟩

end ExternalSurface

section Places

variable {fb : Framebuffer} {c : Compositor} {glyph : Char → ℕ → BitVec 8} {writes : List Write}
  {index : ℕ} {x y width height : ℤ} {color : Pixel} {p q : ℤ → ℤ → Prop}

theorem At.mono (h : At fb index p) (hpq : ∀ x y, p x y → q x y) : At fb index q := by
  obtain ⟨x, y, hx, hy, hindex, hp⟩ := h
  exact ⟨x, y, hx, hy, hindex, hpq x y hp⟩

theorem at_or : At fb index (fun x y => p x y ∨ q x y) ↔ At fb index p ∨ At fb index q := by
  constructor
  · rintro ⟨x, y, hx, hy, hindex, hp | hq⟩
    · exact Or.inl ⟨x, y, hx, hy, hindex, hp⟩
    · exact Or.inr ⟨x, y, hx, hy, hindex, hq⟩
  · rintro (h | h)
    · exact h.mono fun _ _ => Or.inl
    · exact h.mono fun _ _ => Or.inr

theorem lt_clipped {n a b size : ℤ} (hsize : InI32 size) (hn : n < size) (hnonneg : 0 ≤ n) :
    n < min (saturatingAdd a b) size ↔ n < a + b := by
  rw [InI32] at hsize
  unfold saturatingAdd
  omega

theorem mem_screenFill_map : index ∈ (fb.screenFill x y width height color).map Prod.fst ↔
    At fb index (Rect.Has ⟨x, y, width, height⟩) := by
  have hw := screenWidth_mem fb
  have hh := screenHeight_mem fb
  simp only [List.mem_map, mem_screenFill]
  constructor
  · rintro ⟨_, ⟨column, row, ⟨hleft, hright⟩, ⟨htop, hbottom⟩, rfl⟩, rfl⟩
    have hx := max_le_iff.mp hleft
    have hy := max_le_iff.mp htop
    have hxlt := hright.trans_le (min_le_right _ _)
    have hylt := hbottom.trans_le (min_le_right _ _)
    exact ⟨column, row, ⟨hx.2, hxlt⟩, ⟨hy.2, hylt⟩, rfl,
      ⟨hx.1, (lt_clipped hw hxlt hx.2).mp hright⟩, ⟨hy.1, (lt_clipped hh hylt hy.2).mp hbottom⟩⟩
  · rintro ⟨column, row, hx, hy, rfl, ⟨hleft, hright⟩, ⟨htop, hbottom⟩⟩
    exact ⟨_, ⟨column, row, ⟨max_le hleft hx.1, (lt_clipped hw hx.2 hx.1).mpr hright⟩,
      ⟨max_le htop hy.1, (lt_clipped hh hy.2 hy.1).mpr hbottom⟩, rfl⟩, rfl⟩

theorem mem_screenPixel_map : index ∈ (fb.screenPixel x y color).map Prod.fst ↔
    At fb index fun x' y' => x' = x ∧ y' = y := by
  simp only [List.mem_map, mem_screenPixel]
  constructor
  · rintro ⟨_, ⟨hx, hy, rfl⟩, rfl⟩
    exact ⟨x, y, hx, hy, rfl, rfl, rfl⟩
  · rintro ⟨_, _, hx, hy, rfl, rfl, rfl⟩
    exact ⟨_, ⟨hx, hy, rfl⟩, rfl⟩

theorem mem_drawAll_map {β : Type} {f : β → Except Stop (List Write)} {l : List β}
    {at' : β → Prop} (hf : ∀ b ∈ l, ∀ ws, f b = .ok ws → (index ∈ ws.map Prod.fst ↔ at' b))
    (h : drawAll f l = .ok writes) : index ∈ writes.map Prod.fst ↔ ∃ b ∈ l, at' b := by
  constructor
  · intro hmem
    obtain ⟨w, hw, rfl⟩ := List.mem_map.mp hmem
    obtain ⟨b, hb, ws, hws, hw⟩ := mem_drawAll h hw
    exact ⟨b, hb, (hf b hb ws hws).mp (mem_map_of_mem hw)⟩
  · rintro ⟨b, hb, hat⟩
    obtain ⟨ws, hws⟩ := ok_drawAll.mp ⟨writes, h⟩ b hb
    obtain ⟨w, hw, rfl⟩ := List.mem_map.mp ((hf b hb ws hws).mpr hat)
    exact mem_map_of_mem (mem_of_drawAll h hb hws hw)

theorem mem_checkedPixel_map
    (h : (do return fb.screenPixel (← i32 x) (← i32 y) color) = .ok writes) :
    index ∈ writes.map Prod.fst ↔ At fb index fun x' y' => x' = x ∧ y' = y := by
  simp only [bind_eq_ok, pure_eq_ok, i32_eq_ok] at h
  obtain ⟨_, ⟨-, rfl⟩, _, ⟨-, rfl⟩, rfl⟩ := h
  exact mem_screenPixel_map

theorem mem_readPixel_map {size place : ℕ} {buffer : ℕ → Pixel} (h : (do
      let pixel ← readAt size buffer place
      return fb.screenPixel (← i32 x) (← i32 y) pixel) = .ok writes) :
    index ∈ writes.map Prod.fst ↔ At fb index fun x' y' => x' = x ∧ y' = y := by
  obtain ⟨_, -, h⟩ := bind_eq_ok.mp h
  exact mem_checkedPixel_map h

theorem textHas_cons {character : Char} {rest : List Char} {left top : ℤ} :
    TextHas glyph (character :: rest) left top x y ↔
      (∃ row < 8, ∃ column < 8, (glyph character row).getMsbD column = true ∧
        x = left + column ∧ y = top + row) ∨ TextHas glyph rest (left + 9) top x y := by
  constructor
  · rintro ⟨k, d, hd, row, hrow, column, hcolumn, hset, rfl, rfl⟩
    cases k with
    | zero =>
      obtain rfl := Option.some.inj hd
      exact Or.inl ⟨row, hrow, column, hcolumn, hset, by simp, rfl⟩
    | succ k =>
      exact Or.inr ⟨k, d, hd, row, hrow, column, hcolumn, hset, by push_cast; ring, rfl⟩
  · rintro (⟨row, hrow, column, hcolumn, hset, rfl, rfl⟩ |
      ⟨k, d, hd, row, hrow, column, hcolumn, hset, rfl, rfl⟩)
    · exact ⟨0, character, rfl, row, hrow, column, hcolumn, hset, by simp, rfl⟩
    · exact ⟨k + 1, d, hd, row, hrow, column, hcolumn, hset, by push_cast; ring, rfl⟩

theorem at_text_cons {character : Char} {rest : List Char} {left top : ℤ} :
    At fb index (TextHas glyph (character :: rest) left top) ↔
      At fb index (fun x y => ∃ row < 8, ∃ column < 8,
        (glyph character row).getMsbD column = true ∧ x = left + column ∧ y = top + row) ∨
        At fb index (TextHas glyph rest (left + 9) top) := by
  rw [← at_or]
  exact ⟨fun h => h.mono fun _ _ => textHas_cons.mp, fun h => h.mono fun _ _ => textHas_cons.mpr⟩

theorem mem_drawText_map {text : List Char} {left top : ℤ}
    (h : Compositor.drawText glyph fb top color left text = .ok writes) :
    index ∈ writes.map Prod.fst ↔ At fb index (TextHas glyph text left top) := by
  induction text generalizing left writes with
  | nil =>
    cases h
    refine iff_of_false not_mem_nil ?_
    rintro ⟨_, _, _, _, _, k, d, hd, -⟩
    cases hd
  | cons character rest ih =>
    simp only [Compositor.drawText, bind_eq_ok, pure_eq_ok, i32_eq_ok] at h
    obtain ⟨here, hhere, _, ⟨-, rfl⟩, after, hafter, rfl⟩ := h
    have hone : index ∈ here.map Prod.fst ↔ ∃ row ∈ List.range 8, ∃ column ∈ List.range 8,
        (glyph character row).getMsbD column = true ∧
          At fb index fun x' y' => x' = left + column ∧ y' = top + row := by
      refine mem_drawAll_map (fun row _ ws hws => mem_drawAll_map (fun column _ ws hws => ?_) hws)
        hhere
      split at hws
      · rename_i hset
        rw [mem_checkedPixel_map hws, and_iff_right hset]
      · rename_i hset
        cases hws
        exact iff_of_false not_mem_nil fun hat => hset hat.1
    rw [map_append, mem_append, hone, ih hafter, at_text_cons]
    refine or_congr_left ⟨?_, ?_⟩
    · rintro ⟨row, hrow, column, hcolumn, hset, hat⟩
      exact hat.mono fun _ _ hp =>
        ⟨row, mem_range.mp hrow, column, mem_range.mp hcolumn, hset, hp⟩
    · rintro ⟨x, y, hx, hy, hindex, row, hrow, column, hcolumn, hset, hp⟩
      exact ⟨row, mem_range.mpr hrow, column, mem_range.mpr hcolumn, hset, x, y, hx, hy, hindex, hp⟩

theorem at_window {button : ℤ} {w : Window} : At fb index (w.Has glyph button) ↔
    At fb index w.frame.Has ∨ At fb index (w.closeButton button).Has ∨
      At fb index (w.minimizeButton button).Has ∨
      At fb index (TextHas glyph w.title (w.x + w.border + 8)
        (w.y + (w.titleHeight - 8).tdiv 2)) := by
  rw [← at_or, ← at_or, ← at_or]
  rfl

/-- **A window** is drawn where it is. -/
theorem mem_drawWindow_map {window : Window} {focused : Bool}
    (h : c.drawWindow glyph window focused = .ok writes) :
    index ∈ writes.map Prod.fst ↔
      At c.framebuffer index (window.Has glyph c.theme.buttonSize) := by
  have hwidth := window.width_mem
  have hheight := window.height_mem
  have hborder := window.border_nonneg
  have htitle := window.titleHeight_pos
  simp only [Compositor.drawWindow, bind_eq_ok, pure_eq_ok, i32_eq_ok] at h
  obtain ⟨_, ⟨-, rfl⟩, _, ⟨-, rfl⟩, _, ⟨-, rfl⟩, _, ⟨-, rfl⟩, _, ⟨-, rfl⟩, _, ⟨-, rfl⟩, _, ⟨-, rfl⟩,
    _, ⟨-, rfl⟩, _, ⟨-, rfl⟩, _, ⟨-, rfl⟩, _, ⟨-, rfl⟩, _, ⟨-, rfl⟩, _, ⟨-, rfl⟩, _, ⟨-, rfl⟩,
    content, hcontent, _, ⟨-, rfl⟩, _, ⟨-, rfl⟩, _, ⟨-, rfl⟩, text, htext, rfl⟩ := h
  have hcontentIn : index ∈ content.map Prod.fst → At c.framebuffer index window.frame.Has := by
    intro hmem
    obtain ⟨row, hrow, column, hcolumn, hat⟩ := (mem_drawAll_map (fun row _ ws hws =>
      mem_drawAll_map (fun column _ ws hws => mem_readPixel_map hws) hws) hcontent).mp hmem
    rw [mem_range] at hrow hcolumn
    refine hat.mono fun x y hp => ?_
    simp only [Rect.Has, Window.frame]
    omega
  have htitleIn : ∀ {color : Pixel},
      index ∈ (c.framebuffer.screenFill (window.x + window.border) window.y window.width
        window.titleHeight color).map Prod.fst → At c.framebuffer index window.frame.Has := by
    intro color hmem
    refine (mem_screenFill_map.mp hmem).mono fun x y hp => ?_
    simp only [Rect.Has, Window.frame] at hp ⊢
    omega
  simp only [map_append, mem_append, mem_drawText_map htext, at_window]
  constructor
  · rintro (((((hframe | htitle) | hclose) | hminimize) | hcontent) | htext)
    · exact Or.inl (mem_screenFill_map.mp hframe)
    · exact Or.inl (htitleIn htitle)
    · exact Or.inr (Or.inl (mem_screenFill_map.mp hclose))
    · exact Or.inr (Or.inr (Or.inl (mem_screenFill_map.mp hminimize)))
    · exact Or.inl (hcontentIn hcontent)
    · exact Or.inr (Or.inr (Or.inr htext))
  · rintro (hframe | hclose | hminimize | htext)
    · exact Or.inl (Or.inl (Or.inl (Or.inl (Or.inl (mem_screenFill_map.mpr hframe)))))
    · exact Or.inl (Or.inl (Or.inl (Or.inr (mem_screenFill_map.mpr hclose))))
    · exact Or.inl (Or.inl (Or.inr (mem_screenFill_map.mpr hminimize)))
    · exact Or.inr htext

/-- **A surface** is drawn where it is, as far as the size of the screen. -/
theorem mem_drawExternal_map {surface : ExternalSurface}
    (hpos : 0 < c.framebuffer.screenWidth ∧ 0 < c.framebuffer.screenHeight)
    (h : c.drawExternal surface = .ok writes) :
    index ∈ writes.map Prod.fst ↔
      At c.framebuffer index (surface.drawnFrame c.framebuffer).Has := by
  have hw := surface.width_mem
  have hh := surface.height_mem
  simp only [surfaceMaxWidth, surfaceMaxHeight] at hw hh
  have hcolumns : asUsize (min (surface.width : ℤ) c.framebuffer.screenWidth) =
      (min (surface.width : ℤ) c.framebuffer.screenWidth).toNat :=
    asUsize_of_nonneg (le_min (by omega) hpos.1.le) ((min_le_left _ _).trans_lt (by omega))
  have hrows : asUsize (min (surface.height : ℤ) c.framebuffer.screenHeight) =
      (min (surface.height : ℤ) c.framebuffer.screenHeight).toNat :=
    asUsize_of_nonneg (le_min (by omega) hpos.2.le) ((min_le_left _ _).trans_lt (by omega))
  simp only [Compositor.drawExternal, hcolumns, hrows] at h
  rw [mem_drawAll_map (fun row _ ws hws =>
    mem_drawAll_map (fun column _ ws hws => mem_readPixel_map hws) hws) h]
  simp only [mem_range, Int.lt_toNat, lt_min_iff]
  have hsmall : ∀ {k n : ℕ}, (k : ℤ) < n → n ≤ 320 → asI32 k = k := fun hk hn =>
    asI32_of_lt (by omega)
  constructor
  · rintro ⟨row, hrow, column, hcolumn, x, y, hx, hy, hindex, rfl, rfl⟩
    rw [hsmall hcolumn.1 hw.2, hsmall hrow.1 (hh.2.trans (by decide))] at *
    refine ⟨_, _, hx, hy, hindex, ⟨?_, ?_⟩, ⟨?_, ?_⟩⟩
    · exact Int.le_add_of_nonneg_right (Int.natCast_nonneg column)
    · exact Int.add_lt_add_left (lt_min hcolumn.1 hcolumn.2) _
    · exact Int.le_add_of_nonneg_right (Int.natCast_nonneg row)
    · exact Int.add_lt_add_left (lt_min hrow.1 hrow.2) _
  · rintro ⟨x, y, hx, hy, hindex, ⟨hleft, hright⟩, ⟨htop, hbottom⟩⟩
    simp only [ExternalSurface.drawnFrame] at hleft hright htop hbottom
    obtain ⟨column, hcolumn⟩ := Int.eq_ofNat_of_zero_le (Int.sub_nonneg_of_le hleft)
    obtain ⟨row, hrow⟩ := Int.eq_ofNat_of_zero_le (Int.sub_nonneg_of_le htop)
    have hcolumnLt := lt_min_iff.mp (hcolumn ▸ Int.sub_left_lt_of_lt_add hright)
    have hrowLt := lt_min_iff.mp (hrow ▸ Int.sub_left_lt_of_lt_add hbottom)
    refine ⟨row, hrowLt, column, hcolumnLt, x, y, hx, hy, hindex, ?_, ?_⟩
    · rw [hsmall hcolumnLt.1 hw.2]
      omega
    · rw [hsmall hrowLt.1 (hh.2.trans (by decide))]
      omega

end Places

/-! ### The order of windows -/

/-- The `z` of the window with an index. -/
def Compositor.zAt (c : Compositor) (index : ℕ) : BitVec 32 :=
  (c.windows[index]?.map (·.z)).getD 0

/-- A window is drawn before another one: it has a smaller `z`, or the same one and a smaller
index. -/
def Beneath (z : ℕ → BitVec 32) (j k : ℕ) : Prop :=
  (z j).toNat < (z k).toNat ∨ (z j).toNat = (z k).toNat ∧ j < k

instance (z : ℕ → BitVec 32) (j k : ℕ) : Decidable (Beneath z j k) :=
  inferInstanceAs (Decidable (_ ∨ _))

section Order

variable {z : ℕ → BitVec 32} {c : Compositor} {j k : ℕ}

theorem Beneath.asymm (h : Beneath z j k) : ¬ Beneath z k j := by
  unfold Beneath at *
  omega

theorem pairwise_sink {sorted : List ℕ} (h : sorted.Pairwise fun j k => Beneath z k j)
    (hlt : ∀ j ∈ sorted, j < k) :
    (Compositor.sink z k sorted).Pairwise fun j k => Beneath z k j := by
  induction sorted with
  | nil => exact pairwise_singleton _ k
  | cons left rest ih =>
    obtain ⟨hleft, hrest⟩ := pairwise_cons.mp h
    obtain ⟨hlk, hltrest⟩ := forall_mem_cons.mp hlt
    rw [Compositor.sink]
    by_cases hz : z left ≤ z k
    · rw [if_pos hz]
      rw [BitVec.le_def] at hz
      refine pairwise_cons.mpr ⟨forall_mem_cons.mpr ⟨?_, fun j hj => ?_⟩, h⟩
      · unfold Beneath
        omega
      · have hj' := hleft j hj
        have hjk := hltrest j hj
        unfold Beneath at hj' ⊢
        omega
    · rw [if_neg hz]
      rw [BitVec.le_def] at hz
      refine pairwise_cons.mpr ⟨fun j hj => ?_, ih hrest hltrest⟩
      rcases mem_sink.mp hj with rfl | hj
      · exact Or.inl (by omega)
      · exact hleft j hj

theorem pairwise_sinks (n : ℕ) :
    ((List.range n).foldl (fun sorted index => Compositor.sink z index sorted) []).Pairwise
        (fun j k => Beneath z k j) ∧
      ∀ j ∈ (List.range n).foldl (fun sorted index => Compositor.sink z index sorted) [],
        j < n := by
  induction n with
  | zero => exact ⟨List.Pairwise.nil, fun j hj => absurd hj not_mem_nil⟩
  | succ n ih =>
    obtain ⟨hsorted, hlt⟩ := ih
    rw [range_succ, foldl_append, foldl_cons, foldl_nil]
    refine ⟨pairwise_sink hsorted hlt, fun j hj => ?_⟩
    rcases mem_sink.mp hj with rfl | hj
    · exact Nat.lt_succ_self j
    · exact (hlt j hj).trans (Nat.lt_succ_self n)

/-- **Windows are drawn** by their `z`, and those with the same one by their index. -/
theorem pairwise_order : c.order.Pairwise (Beneath c.zAt) :=
  pairwise_reverse.mpr (pairwise_sinks c.windows.length).1

theorem getLast?_eq_some_iff_above {l : List ℕ} (hl : l.Pairwise (Beneath z)) :
    l.getLast? = some k ↔ k ∈ l ∧ ∀ j ∈ l, j ≠ k → Beneath z j k := by
  constructor
  · intro h
    obtain ⟨start, rfl⟩ := List.getLast?_eq_some_iff.mp h
    obtain ⟨-, -, hbefore⟩ := pairwise_append.mp hl
    refine ⟨mem_append_right _ (mem_singleton_self k), fun j hj hne => ?_⟩
    rcases mem_append.mp hj with hj | hj
    · exact hbefore j hj k (mem_singleton_self k)
    · exact absurd (mem_singleton.mp hj) hne
  · rintro ⟨hk, habove⟩
    obtain ⟨start, last, rfl⟩ : ∃ start last, l = start ++ [last] :=
      ⟨l.dropLast, l.getLast (ne_nil_of_mem hk), (dropLast_append_getLast _).symm⟩
    rw [List.getLast?_append, List.getLast?_singleton]
    by_cases hlast : last = k
    · rw [hlast]
      rfl
    · obtain ⟨-, -, hbefore⟩ := pairwise_append.mp hl
      have hstart : k ∈ start := (mem_append.mp hk).resolve_right fun h =>
        hlast (mem_singleton.mp h).symm
      exact absurd (hbefore k hstart last (mem_singleton_self last))
        (habove last (mem_append_right _ (mem_singleton_self last)) hlast).asymm

end Order

/-! ### What is seen -/

section Topmost

variable {c : Compositor} {glyph : Char → ℕ → BitVec 8} {index : ℕ}
  {layers : List (Option Target × List Write)}

theorem map_filter_drawEach {β : Type} {f : β → Except Stop (List Write)} {l : List β}
    {each : List (β × List Write)} {p : β → Prop} [DecidablePred p]
    (hp : ∀ b ∈ l, ∀ ws, f b = .ok ws → (index ∈ ws.map Prod.fst ↔ p b))
    (h : Compositor.drawEach f l = .ok each) :
    (each.filter fun layer => index ∈ layer.2.map Prod.fst).map Prod.fst = l.filter p := by
  induction l generalizing each with
  | nil =>
    cases h
    rfl
  | cons b l ih =>
    obtain ⟨hb, hl⟩ := forall_mem_cons.mp hp
    simp only [Compositor.drawEach, bind_eq_ok, pure_eq_ok] at h
    obtain ⟨ws, hws, rest, hrest, rfl⟩ := h
    have hrest' := ih hl hrest
    by_cases hdrawn : p b
    · rw [filter_cons_of_pos (by simpa using (hb ws hws).mpr hdrawn), map_cons, hrest',
        filter_cons_of_pos (by simpa using hdrawn)]
    · have hnot := mt (hb ws hws).mp hdrawn
      rw [filter_cons_of_neg (by simpa using hnot), hrest',
        filter_cons_of_neg (by simpa using hdrawn)]

theorem topLayer_drawEach {β : Type} {f : β → Except Stop (List Write)} {l : List β}
    {each : List (β × List Write)} {p : β → Prop} [DecidablePred p]
    (hp : ∀ b ∈ l, ∀ ws, f b = .ok ws → (index ∈ ws.map Prod.fst ↔ p b))
    (h : Compositor.drawEach f l = .ok each) :
    (topLayer index each).map Prod.fst = (l.filter p).getLast? := by
  rw [← map_filter_drawEach hp h, List.getLast?_map]
  rfl

/-- **What is seen** is the last surface that is drawn at a place, or else the last window. -/
theorem topmost_eq {p : ExternalSurface → Prop} {q : ℕ → Prop} [DecidablePred p] [DecidablePred q]
    (hp : ∀ s ∈ c.external, ∀ ws, c.drawExternal s = .ok ws → (index ∈ ws.map Prod.fst ↔ p s))
    (hq : ∀ k ∈ c.order, ∀ ws, c.drawIndex glyph k = .ok ws → (index ∈ ws.map Prod.fst ↔ q k))
    (h : c.layers glyph = .ok layers) :
    topmost layers index = ((c.external.filter p).getLast?.map fun s => .surface s.id).or
      ((c.order.filter q).getLast?.map .window) := by
  simp only [Compositor.layers, bind_eq_ok, pure_eq_ok] at h
  obtain ⟨windows, hwindows, external, hexternal, rfl⟩ := h
  have hsurface := topLayer_drawEach hp hexternal
  have hwindow := topLayer_drawEach hq hwindows
  rw [topmost, topLayer_append,
    topLayer_map (fun s : ExternalSurface => some (Target.surface s.id)) external, ← hsurface,
    Option.map_map]
  cases topLayer index external with
  | some layer => rfl
  | none =>
    rw [← singleton_append, topLayer_append,
      topLayer_map (fun k : ℕ => some (Target.window k)) windows, ← hwindow, Option.map_map]
    cases topLayer index windows with
    | some layer => rfl
    | none =>
      -- Only the desktop is left, which belongs to nobody.
      obtain hnone | ⟨layer, hlayer⟩ := Option.eq_none_or_eq_some (topLayer index
        [((none : Option Target), c.framebuffer.screenFill 0 0 c.framebuffer.screenWidth
          c.framebuffer.screenHeight (c.framebuffer.color c.theme.desktop) ++ c.drawDesktopBar)])
      · rw [hnone]
        rfl
      · rw [hlayer]
        rw [topLayer] at hlayer
        have hmem := mem_of_mem_filter (mem_of_getLast? hlayer)
        rw [mem_singleton.mp hmem]
        rfl

end Topmost

end ImagineOS.Display
