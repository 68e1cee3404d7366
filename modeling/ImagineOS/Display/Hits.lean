import ImagineOS.Display.Layers

/-!
# Display: what is under the pointer

A click looks for a surface first, the oldest one, and then for a window, the one with the highest
index. A full redraw has other orders: the oldest surface is behind the others, and a window that
was clicked has a new `z` and its old index. Buttons and titles may also be drawn outside of the
frame of their window, where a click does not find them.
-/

namespace ImagineOS.Display

namespace Compositor

/-! ### Clicks -/

/-- The window that `begin_drag_or_focus` selects. -/
def selected (c : Compositor) : Except Stop (Option ℕ) :=
  (List.range c.windows.length).reverse.findM? fun index =>
    match c.windows[index]? with
    | none => return false
    | some window => window.contains c.pointerX c.pointerY

/-- What a click finds: surfaces come first. -/
def hit (c : Compositor) : Except Stop (Option Target) := do
  match ← c.externalAt c.pointerX c.pointerY with
  | some id => return some (.surface id)
  | none => return (← c.selected).map .window

/-- The place of the pointer in the back buffer. -/
def pointerIndex (c : Compositor) : ℕ := backIndex c.pointerX c.pointerY

/-- The pointer is in a rectangle. -/
def Under (c : Compositor) (r : Rect) : Prop := r.Has c.pointerX c.pointerY

instance (r : Rect) (x y : ℤ) : Decidable (r.Has x y) := inferInstanceAs (Decidable (_ ∧ _))

instance (c : Compositor) (r : Rect) : Decidable (c.Under r) :=
  inferInstanceAs (Decidable (r.Has _ _))

end Compositor

section Press

end Press

/-! ### Searches -/

section Search

variable {α : Type} {l : List α} {a : α} {f : α → Except Stop Bool} {p q : α → Prop}
  [DecidablePred p] [DecidablePred q]

theorem findM?_eq (hno : ∀ a ∈ l, ¬ p a → f a = .ok false)
    (hyes : ∀ a ∈ l, p a → f a = if q a then .ok true else .error .overflow) :
    l.findM? f = match l.find? p with
      | none => .ok none
      | some a => if q a then .ok (some a) else .error .overflow := by
  induction l with
  | nil => rfl
  | cons a l ih =>
    obtain ⟨hnoHead, hno⟩ := List.forall_mem_cons.mp hno
    obtain ⟨hyesHead, hyes⟩ := List.forall_mem_cons.mp hyes
    rw [List.findM?]
    by_cases ha : p a
    · rw [hyesHead ha, List.find?_cons_of_pos (by simpa using ha)]
      dsimp only
      split <;> rfl
    · rw [hnoHead ha, List.find?_cons_of_neg (by simpa using ha), ← ih hno hyes]
      rfl

end Search

/-! ### Frames -/

section Frames

variable {lo x y stop a : ℤ} {sizes : List (Except Stop ℤ)} {glyph : Char → ℕ → BitVec 8}
  {button : ℤ} {w : Window}

theorem sum_cons (h : InI32 (lo + a)) :
    (.ok a :: sizes).foldlM (fun sum size => do i32 (sum + (← size))) lo =
      sizes.foldlM (fun sum size => do i32 (sum + (← size))) (lo + a) := by
  rw [List.foldlM_cons]
  simp only [i32, if_pos h, bind, Except.bind]

theorem sum_overflow (h : ¬ InI32 (lo + a)) :
    (.ok a :: sizes).foldlM (fun sum size => do i32 (sum + (← size))) lo = .error .overflow := by
  rw [List.foldlM_cons]
  simp only [i32, if_neg h, bind, Except.bind]

theorem within_eq
    (h : lo ≤ x → sizes.foldlM (fun sum size => do i32 (sum + (← size))) lo = .ok stop) :
    Window.within x lo sizes = .ok (decide (lo ≤ x ∧ x < stop)) := by
  rw [Window.within]
  by_cases hlo : x < lo
  · rw [if_pos hlo, decide_eq_false fun hx => absurd hx.1 (not_le.mpr hlo)]
  · rw [if_neg hlo, h (not_lt.mp hlo)]
    simp [not_lt.mp hlo, bind, Except.bind, pure, Except.pure]

theorem within_columns (hx : InI32 w.x) (hfits : WindowFits glyph button w) :
    Window.within x w.x [.ok w.width, i32 (2 * w.border)] =
      .ok (decide (w.frame.x ≤ x ∧ x < w.frame.x + w.frame.width)) := by
  have hwidth := w.width_mem
  have hborder := w.border_nonneg
  have hright := hfits.right
  have hsize := hfits.width
  rw [InI32] at hx
  have hdouble : i32 (2 * w.border) = .ok (2 * w.border) :=
    i32_eq_ok.mpr ⟨⟨by omega, by omega⟩, rfl⟩
  refine within_eq fun _ => ?_
  rw [hdouble, sum_cons ⟨by omega, by omega⟩, sum_cons ⟨by omega, by omega⟩, List.foldlM_nil,
    Window.frame, Int.add_assoc]
  rfl

theorem within_rows (hy : InI32 w.y) (hfits : WindowFits glyph button w) :
    (w.frame.y + w.frame.height < 2 ^ 31 →
      Window.within y w.y [.ok w.height, .ok w.titleHeight, .ok w.border] =
        .ok (decide (w.frame.y ≤ y ∧ y < w.frame.y + w.frame.height))) ∧
    (w.frame.y ≤ y → ¬ w.frame.y + w.frame.height < 2 ^ 31 →
      Window.within y w.y [.ok w.height, .ok w.titleHeight, .ok w.border] = .error .overflow) := by
  have hheight := w.height_mem
  have hborder := w.border_nonneg
  have htitle := w.titleHeight_pos
  have hbottom := hfits.bottom
  rw [InI32] at hy
  simp only [Window.frame]
  have hfirst : InI32 (w.y + w.height) := ⟨by omega, by omega⟩
  refine ⟨fun hlt => within_eq fun _ => ?_, fun hle hlt => ?_⟩
  · rw [sum_cons hfirst, sum_cons ⟨by omega, by omega⟩, sum_cons ⟨by omega, by omega⟩,
      List.foldlM_nil, ← Int.add_assoc, ← Int.add_assoc]
    rfl
  · rw [Window.within, if_neg (not_lt.mpr hle), sum_cons hfirst]
    by_cases hsecond : InI32 (w.y + w.height + w.titleHeight)
    · rw [sum_cons hsecond, sum_overflow fun hno => hlt (by rw [InI32] at hno; omega)]
      rfl
    · rw [sum_overflow hsecond]
      rfl

/-- **A click** does not find a window where its frame is not. -/
theorem contains_of_not (hx : InI32 w.x) (hy : InI32 w.y) (hfits : WindowFits glyph button w)
    (hlt : y < 2 ^ 31) (h : ¬ w.frame.Has x y) : w.contains x y = .ok false := by
  rw [Window.contains, within_columns hx hfits]
  by_cases hcolumn : w.frame.x ≤ x ∧ x < w.frame.x + w.frame.width
  · simp only [hcolumn, and_self, decide_true, bind, Except.bind, if_true]
    have hrow : ¬ (w.frame.y ≤ y ∧ y < w.frame.y + w.frame.height) := fun hrow => h ⟨hcolumn, hrow⟩
    by_cases htop : w.frame.y ≤ y
    · rw [(within_rows hy hfits).1 (by omega), decide_eq_false hrow]
    · have htop' : y < w.y := not_le.mp htop
      rw [Window.within, if_pos htop']
  · simp only [decide_eq_false hcolumn, bind, Except.bind, Bool.false_eq_true, if_false]
    rfl

theorem contains_of_has (hx : InI32 w.x) (hy : InI32 w.y) (hfits : WindowFits glyph button w)
    (h : w.frame.Has x y) : w.contains x y =
      if w.frame.y + w.frame.height < 2 ^ 31 then .ok true else .error .overflow := by
  rw [Window.contains, within_columns hx hfits, decide_eq_true h.1]
  simp only [bind, Except.bind, if_true]
  split
  · rename_i hlt
    rw [(within_rows hy hfits).1 hlt, decide_eq_true h.2]
  · rename_i hlt
    exact (within_rows hy hfits).2 h.2.1 hlt

theorem within_surface {size : ℕ} (hlo : InI32 lo) (hsize : size ≤ 320) (hx : x < 2 ^ 31 - 320) :
    Window.within x lo [.ok (size : ℤ)] = .ok (decide (lo ≤ x ∧ x < lo + size)) := by
  refine within_eq fun hle => ?_
  rw [InI32] at hlo
  rw [sum_cons ⟨by omega, by omega⟩, List.foldlM_nil]
  rfl

end Frames

/-! ### What a click finds -/

namespace Compositor

variable (c : Compositor)

/-- The frame of the window with an index is under the pointer. -/
def FrameUnder (k : ℕ) : Prop := ∃ w ∈ c.windows[k]?, c.Under w.frame

instance (k : ℕ) : Decidable (c.FrameUnder k) :=
  inferInstanceAs (Decidable (∃ w ∈ c.windows[k]?, c.Under w.frame))

/-- The window ends at a number of 32 bits. -/
def Measured (k : ℕ) : Prop := ∀ w ∈ c.windows[k]?, w.frame.y + w.frame.height < 2 ^ 31

instance (k : ℕ) : Decidable (c.Measured k) :=
  inferInstanceAs (Decidable (∀ w ∈ c.windows[k]?, w.frame.y + w.frame.height < 2 ^ 31))

/-- A surface is drawn where the pointer is. -/
def DrawsSurface (s : ExternalSurface) : Prop :=
  At c.framebuffer c.pointerIndex (s.drawnFrame c.framebuffer).Has

/-- The window with an index is drawn where the pointer is. -/
def DrawsWindow (glyph : Char → ℕ → BitVec 8) (k : ℕ) : Prop :=
  ∃ w ∈ c.windows[k]?, At c.framebuffer c.pointerIndex (w.Has glyph c.theme.buttonSize)

/-- The pointer is on the screen. -/
def PointerOn : Prop :=
  (0 ≤ c.pointerX ∧ c.pointerX < c.framebuffer.screenWidth) ∧
    (0 ≤ c.pointerY ∧ c.pointerY < c.framebuffer.screenHeight)

/-- **The condition**: of the surfaces, the last one that is drawn where the pointer is has the `id`
of the first one whose frame is there. If no frame is, then no surface is drawn there, and of the
windows, the one with the highest index whose frame is there is above all others that are drawn
there, with frames, buttons or titles; or none is drawn there. -/
structure Upright (glyph : Char → ℕ → BitVec 8) : Prop where
  surface : ∀ s, (c.external.find? fun s => c.Under s.frame) = some s →
    ∃ last, c.DrawsSurface last ∧ (∃ front behind, c.external = front ++ last :: behind ∧
      ∀ e ∈ behind, ¬ c.DrawsSurface e) ∧ last.id = s.id
  window : (∀ s ∈ c.external, ¬ c.Under s.frame) →
    (∀ s ∈ c.external, ¬ c.DrawsSurface s) ∧
      ((∃ k, c.FrameUnder k ∧ c.Measured k ∧ ∀ j, j ≠ k →
        (c.FrameUnder j → j < k) ∧ (c.DrawsWindow glyph j → Beneath c.zAt j k)) ∨
        ∀ j, ¬ c.DrawsWindow glyph j)

end Compositor

section Hit

variable {c : Compositor} {glyph : Char → ℕ → BitVec 8} {k : ℕ} {s : ExternalSurface}
  {layers : List (Option Target × List Write)}

theorem Compositor.PointerOn.small (hpointer : c.PointerOn) (hfits : ScreenFits c.framebuffer) :
    c.pointerX < 2 ^ 31 - 320 ∧ c.pointerY < 2 ^ 31 - 320 := by
  obtain ⟨hx, hy⟩ := hpointer
  simp only [ScreenFits, maxScreenWidth, screenPixels, maxScreenHeight] at hfits
  omega

theorem externalAt_eq (htyped : Typed c) (hpointer : c.PointerOn)
    (hfits : ScreenFits c.framebuffer) : c.externalAt c.pointerX c.pointerY =
      .ok ((c.external.find? fun s => c.Under s.frame).map (·.id)) := by
  obtain ⟨hx, hy⟩ := hpointer.small hfits
  have hone : ∀ s ∈ c.external, (do
      if ← Window.within c.pointerX s.x [.ok (s.width : ℤ)] then
        Window.within c.pointerY s.y [.ok (s.height : ℤ)]
      else return false : Except Stop Bool) = .ok (decide (c.Under s.frame)) := fun s hs => by
    have hw := s.width_mem.2
    have hh := s.height_mem.2
    simp only [surfaceMaxWidth, surfaceMaxHeight] at hw hh
    rw [within_surface (htyped.external s hs).1 hw hx,
      within_surface (htyped.external s hs).2 (hh.trans (by decide)) hy]
    simp only [bind, Except.bind, decide_eq_true_eq]
    split
    · rename_i hcolumn
      exact congrArg Except.ok (decide_eq_decide.mpr (and_iff_right hcolumn).symm)
    · rename_i hcolumn
      rw [decide_eq_false fun h : c.Under s.frame => hcolumn h.1]
      rfl
  rw [Compositor.externalAt, findM?_eq (p := fun s => c.Under s.frame) (q := fun _ => True)]
  · cases c.external.find? fun s => c.Under s.frame <;> rfl
  · exact fun s hs hno => (hone s hs).trans (by rw [decide_eq_false hno])
  · exact fun s hs hyes => (hone s hs).trans (by rw [decide_eq_true hyes, if_pos trivial])

theorem selected_eq (htyped : Typed c) (hpointer : c.PointerOn) (hfits : ScreenFits c.framebuffer)
    (hwindows : ∀ w ∈ c.windows, WindowFits glyph c.theme.buttonSize w) :
    c.selected = match (List.range c.windows.length).reverse.find? fun k => c.FrameUnder k with
      | none => .ok none
      | some k => if c.Measured k then .ok (some k) else .error .overflow := by
  have hy := (hpointer.small hfits).2
  rw [Compositor.selected, findM?_eq (p := c.FrameUnder) (q := c.Measured)]
  · cases (List.range c.windows.length).reverse.find? fun k => c.FrameUnder k <;> rfl
  · intro k _ hno
    cases hwindow : c.windows[k]? with
    | none => rfl
    | some w =>
      have hw := List.mem_of_getElem? hwindow
      have hnot : ¬ w.frame.Has c.pointerX c.pointerY := fun h => hno ⟨w, hwindow, h⟩
      exact contains_of_not (htyped.windows w hw).1 (htyped.windows w hw).2 (hwindows w hw)
        (by omega) hnot
  · intro k _ hyes
    obtain ⟨w, hwindow, hhas⟩ := hyes
    have hw := List.mem_of_getElem? hwindow
    have hmeasured : c.Measured k ↔ w.frame.y + w.frame.height < 2 ^ 31 := by
      rw [Option.mem_def] at hwindow
      rw [Compositor.Measured, hwindow]
      simp
    simp only [Option.mem_def.mp hwindow, hmeasured]
    exact contains_of_has (htyped.windows w hw).1 (htyped.windows w hw).2 (hwindows w hw) hhas

theorem getLast?_filter_eq_some_iff {α : Type} {p : α → Prop} [DecidablePred p] {l : List α}
    {a : α} : (l.filter p).getLast? = some a ↔
      p a ∧ ∃ front behind, l = front ++ a :: behind ∧ ∀ b ∈ behind, ¬ p b := by
  rw [List.getLast?_filter, List.find?_eq_some_iff_append, decide_eq_true_eq]
  refine and_congr_right fun _ => ⟨?_, ?_⟩
  · rintro ⟨behind, front, heq, hno⟩
    refine ⟨front.reverse, behind.reverse, ?_, fun b hb => ?_⟩
    · rw [← List.reverse_reverse l, heq]
      simp
    · simpa using hno b (List.mem_reverse.mp hb)
  · rintro ⟨front, behind, rfl, hno⟩
    exact ⟨behind.reverse, front.reverse, by simp, fun b hb => by
      simpa using hno b (List.mem_reverse.mp hb)⟩

theorem find?_frameUnder {o : Option ℕ}
    (h : ((List.range c.windows.length).reverse.find? fun k => c.FrameUnder k) = o) :
    (∀ k, o = some k → c.FrameUnder k ∧ ∀ j, c.FrameUnder j → j ≠ k → j < k) ∧
      (o = none → ∀ j, ¬ c.FrameUnder j) := by
  have hlt : ∀ {j}, c.FrameUnder j → j < c.windows.length := fun ⟨w, hw, _⟩ =>
    (List.getElem?_eq_some_iff.mp hw).1
  refine ⟨?_, ?_⟩
  · rintro k rfl
    obtain ⟨hk, before, after, heq, hno⟩ := List.find?_eq_some_iff_append.mp h
    refine ⟨by simpa using hk, fun j hj hne => ?_⟩
    have hsorted : (before ++ k :: after).Pairwise (· > ·) :=
      heq ▸ List.pairwise_reverse.mpr List.pairwise_lt_range
    have hmem : j ∈ before ++ k :: after := heq ▸ by simpa using hlt hj
    have hafter : j ∈ after := by
      rcases List.mem_append.mp hmem with hbefore | hmem
      · exact absurd hj (by simpa using hno j hbefore)
      · exact (List.mem_cons.mp hmem).resolve_left hne
    exact (List.pairwise_cons.mp (List.pairwise_append.mp hsorted).2.1).1 j hafter
  · rintro rfl j hj
    have hnone := List.find?_eq_none.mp h j (by simpa using hlt hj)
    exact hnone (by simpa using hj)

theorem mem_drawIndex_map {index : ℕ} {writes : List Write} (hk : k ∈ c.order)
    (h : c.drawIndex glyph k = .ok writes) : index ∈ writes.map Prod.fst ↔
      ∃ w ∈ c.windows[k]?, At c.framebuffer index (w.Has glyph c.theme.buttonSize) := by
  have hget := List.getElem?_eq_getElem (mem_order.mp hk)
  rw [Compositor.drawIndex, hget] at h
  rw [mem_drawWindow_map h, hget]
  simp

theorem drawsWindow_of_frameUnder (hpointer : c.PointerOn) (h : c.FrameUnder k) :
    c.DrawsWindow glyph k := by
  obtain ⟨w, hw, hhas⟩ := h
  exact ⟨w, hw, c.pointerX, c.pointerY, hpointer.1, hpointer.2, rfl, Or.inl hhas⟩

theorem mem_order_of_drawsWindow (h : c.DrawsWindow glyph k) : k ∈ c.order := by
  obtain ⟨w, hw, -⟩ := h
  exact mem_order.mpr (List.getElem?_eq_some_iff.mp hw).1

/-- A surface that is found is seen if and only if the last one that is drawn has its `id`. -/
theorem surface_eq_iff [DecidablePred c.DrawsSurface] {rest : Option Target}
    (hrest : ∀ id, rest ≠ some (.surface id)) (id : ℕ) :
    some (Target.surface id) =
      ((c.external.filter c.DrawsSurface).getLast?.map fun s => .surface s.id).or rest ↔
      ∃ last, c.DrawsSurface last ∧ (∃ front behind, c.external = front ++ last :: behind ∧
        ∀ e ∈ behind, ¬ c.DrawsSurface e) ∧ last.id = id := by
  have hlast : ∀ last, (c.external.filter c.DrawsSurface).getLast? = some last ↔
      c.DrawsSurface last ∧ ∃ front behind, c.external = front ++ last :: behind ∧
        ∀ e ∈ behind, ¬ c.DrawsSurface e := fun last => getLast?_filter_eq_some_iff
  constructor
  · intro h
    cases hget : (c.external.filter c.DrawsSurface).getLast? with
    | none =>
      rw [hget] at h
      exact absurd h.symm (hrest id)
    | some last =>
      rw [hget] at h
      obtain ⟨hdraws, hsplit⟩ := (hlast last).mp hget
      exact ⟨last, hdraws, hsplit, (Target.surface.inj (Option.some.inj h)).symm⟩
  · rintro ⟨last, hdraws, hsplit, rfl⟩
    rw [(hlast last).mpr ⟨hdraws, hsplit⟩]
    rfl

theorem window_eq_iff [DecidablePred (c.DrawsWindow glyph)] (hdraws : c.DrawsWindow glyph k) :
    (c.order.filter (c.DrawsWindow glyph)).getLast? = some k ↔
      ∀ j, j ≠ k → c.DrawsWindow glyph j → Beneath c.zAt j k := by
  rw [getLast?_eq_some_iff_above (pairwise_order.filter _)]
  have hmem : ∀ j, j ∈ c.order.filter (c.DrawsWindow glyph) ↔ c.DrawsWindow glyph j := fun j => by
    rw [List.mem_filter, decide_eq_true_eq]
    exact and_iff_right_of_imp mem_order_of_drawsWindow
  simp only [hmem, hdraws, true_and]
  exact ⟨fun h j hne hj => h j hj hne, fun h j hj hne => h j hne hj⟩

/-- What is selected is seen, or nothing is, if and only if the windows are in order. -/
theorem selected_eq_iff [DecidablePred (c.DrawsWindow glyph)] (htyped : Typed c)
    (hpointer : c.PointerOn) (hfits : ScreenFits c.framebuffer)
    (hwindows : ∀ w ∈ c.windows, WindowFits glyph c.theme.buttonSize w) :
    c.selected = .ok (c.order.filter (c.DrawsWindow glyph)).getLast? ↔
      (∃ k, c.FrameUnder k ∧ c.Measured k ∧ ∀ j, j ≠ k →
        (c.FrameUnder j → j < k) ∧ (c.DrawsWindow glyph j → Beneath c.zAt j k)) ∨
        ∀ j, ¬ c.DrawsWindow glyph j := by
  rw [selected_eq htyped hpointer hfits hwindows]
  cases hfind : (List.range c.windows.length).reverse.find? fun k => c.FrameUnder k with
  | none =>
    have hnone := (find?_frameUnder hfind).2 rfl
    have hempty : none = (c.order.filter (c.DrawsWindow glyph)).getLast? ↔
        ∀ j, ¬ c.DrawsWindow glyph j := by
      rw [eq_comm, List.getLast?_eq_none_iff, List.filter_eq_nil_iff]
      simp only [decide_eq_true_eq]
      exact ⟨fun h j hj => h j (mem_order_of_drawsWindow hj) hj, fun h j _ => h j⟩
    simp only [Except.ok.injEq, hempty]
    exact ⟨Or.inr, fun h => h.resolve_left fun ⟨k, hk, _⟩ => hnone k hk⟩
  | some k =>
    obtain ⟨hk, hhighest⟩ := (find?_frameUnder hfind).1 k rfl
    have hdraws := @drawsWindow_of_frameUnder c glyph _ hpointer hk
    have hsame : ∀ {k'}, c.FrameUnder k' → (∀ j, j ≠ k' → c.FrameUnder j → j < k') → k' = k :=
      fun {k'} hk' hhighest' => by
        by_contra hne
        exact absurd (hhighest k' hk' hne) (Nat.not_lt.mpr (hhighest' k (Ne.symm hne) hk).le)
    by_cases hmeasured : c.Measured k
    · simp only [if_pos hmeasured, Except.ok.injEq]
      rw [eq_comm, window_eq_iff hdraws]
      constructor
      · intro habove
        exact Or.inl ⟨k, hk, hmeasured, fun j hne => ⟨fun hj => hhighest j hj hne, habove j hne⟩⟩
      · rintro (⟨k', hk', -, habove⟩ | hno)
        · obtain rfl := hsame hk' fun j hne => (habove j hne).1
          exact fun j hne => (habove j hne).2
        · exact absurd hdraws (hno k)
    · simp only [if_neg hmeasured, reduceCtorEq, false_iff, not_or]
      refine ⟨?_, fun hno => hno k hdraws⟩
      rintro ⟨k', hk', hmeasured', habove⟩
      obtain rfl := hsame hk' fun j hne => (habove j hne).1
      exact hmeasured hmeasured'

theorem map_window_iff {m : Except Stop (Option ℕ)} {o : Option ℕ} :
    (do return (← m).map Target.window) = .ok (o.map Target.window) ↔ m = .ok o := by
  have hinj : Function.Injective (Option.map Target.window) :=
    Option.map_injective fun _ _ h => Target.window.inj h
  simp only [bind_eq_ok, pure_eq_ok]
  exact ⟨fun ⟨_, hm, heq⟩ => hinj heq ▸ hm, fun hm => ⟨o, hm, rfl⟩⟩

/-- **Headline.** Where the pointer is on the screen and everything is drawn, a click finds what is
seen there, and nothing where only the desktop is, if and only if the surfaces and windows under the
pointer are drawn in the order in which a click looks for them. -/
theorem hit_eq_topmost_iff {c' : Compositor} (htyped : Typed c) (hbutton : 1 ≤ c.theme.buttonSize)
    (hpointer : c.PointerOn) (hdrawn : c.compose glyph = .ok c') :
    (∃ layers, c.layers glyph = .ok layers ∧
      c.hit = .ok (topmost layers c.pointerIndex)) ↔ c.Upright glyph := by
  classical
  obtain ⟨layers, hlayers, hfits⟩ := compose_layers hdrawn
  have hwindows := ((ok_scene htyped hbutton).mp
    ⟨_, scene_eq_layers.mpr ⟨layers, hlayers, rfl⟩⟩).1
  have hpos := And.intro (hpointer.1.1.trans_lt hpointer.1.2) (hpointer.2.1.trans_lt hpointer.2.2)
  have htop := @topmost_eq c glyph c.pointerIndex layers c.DrawsSurface (c.DrawsWindow glyph) _ _
    (fun s _ ws hws => mem_drawExternal_map hpos hws)
    (fun k hk ws hws => mem_drawIndex_map hk hws) hlayers
  have hone : (∃ layers, c.layers glyph = .ok layers ∧
      c.hit = .ok (topmost layers c.pointerIndex)) ↔
        c.hit = .ok (topmost layers c.pointerIndex) :=
    ⟨fun ⟨_, hlayers', hhit⟩ => Except.ok.inj (hlayers.symm.trans hlayers') ▸ hhit,
      fun hhit => ⟨layers, hlayers, hhit⟩⟩
  rw [hone, htop, Compositor.hit, externalAt_eq htyped hpointer hfits]
  cases hfind : c.external.find? fun s => c.Under s.frame with
  | some s =>
    have hunder : ¬ ∀ s ∈ c.external, ¬ c.Under s.frame := fun hno =>
      hno s (List.mem_of_find?_eq_some hfind) (by simpa using List.find?_some hfind)
    have hrest : ∀ id, (c.order.filter (c.DrawsWindow glyph)).getLast?.map Target.window ≠
        some (.surface id) := fun id h => by
      obtain ⟨k, -, hk⟩ := Option.map_eq_some_iff.mp h
      cases hk
    have hfound := surface_eq_iff (c := c) hrest s.id
    constructor
    · intro h
      refine ⟨fun s' hs' => ?_, fun hno => absurd hno hunder⟩
      obtain rfl := Option.some.inj (hfind.symm.trans hs')
      exact hfound.mp (Except.ok.inj h)
    · exact fun h => congrArg Except.ok (hfound.mpr (h.surface s hfind))
  | none =>
    have hnone : ∀ s ∈ c.external, ¬ c.Under s.frame := by
      simpa using hfind
    have hselected := selected_eq_iff htyped hpointer hfits hwindows
    by_cases hdraws : ∀ s ∈ c.external, ¬ c.DrawsSurface s
    · have hempty : (c.external.filter c.DrawsSurface).getLast? = none := by
        rw [List.getLast?_eq_none_iff, List.filter_eq_nil_iff]
        simpa using hdraws
      rw [hempty]
      change (do return (← c.selected).map Target.window) = .ok (Option.map Target.window _) ↔ _
      rw [map_window_iff, hselected]
      refine ⟨fun h => ⟨fun s hs => ?_, fun _ => ⟨hdraws, h⟩⟩, fun h => (h.window hnone).2⟩
      cases hfind.symm.trans hs
    · refine iff_of_false (fun h => ?_) fun h => hdraws (h.window hnone).1
      -- A surface is seen, and a window is found.
      change (do return (← c.selected).map Target.window) = _ at h
      obtain ⟨selected, -, hmap⟩ := bind_eq_ok.mp h
      have hmap := pure_eq_ok.mp hmap
      cases hlast : (c.external.filter c.DrawsSurface).getLast? with
      | none =>
        rw [List.getLast?_eq_none_iff, List.filter_eq_nil_iff] at hlast
        exact hdraws (by simpa using hlast)
      | some last =>
        rw [hlast] at hmap
        cases selected <;> cases hmap

end Hit

/-- A surface of one pixel in the corner. -/
def pixelSurface (id : ℕ) : ExternalSurface :=
  ⟨⟨id, 1, 1, 1, 0, by decide, by decide, rfl⟩, 0, 0⟩

/-- A window of one pixel in the corner, under a title of one line. -/
def pixelWindow (z : BitVec 32) : Window :=
  ⟨[], 0, 0, 1, 1, fun _ => 0, z, 0, 1, by decide, by decide, by decide, by decide, by decide⟩

/-- Windows and surfaces in the corner, with the pointer over them. -/
def crowded (windows : List Window) (external : List ExternalSurface) : Compositor :=
  { inCorner [] with
    windows := windows
    external := external }

/-- A surface over two windows is found, and seen. -/
theorem hit_eq_topmost_sample : ∃ layers,
    (crowded [pixelWindow 0, pixelWindow 1] [pixelSurface 7]).layers (fun _ _ => 0) = .ok layers ∧
      (crowded [pixelWindow 0, pixelWindow 1] [pixelSurface 7]).hit =
        .ok (topmost layers
          (crowded [pixelWindow 0, pixelWindow 1] [pixelSurface 7]).pointerIndex) := by
  have hdrawn : ((crowded [pixelWindow 0, pixelWindow 1] [pixelSurface 7]).compose
      fun _ _ => 0).toOption.isSome = true := by decide +kernel
  obtain ⟨drawn, hdrawn⟩ := Option.isSome_iff_exists.mp hdrawn
  have hpointer : (crowded [pixelWindow 0, pixelWindow 1] [pixelSurface 7]).PointerOn :=
    ⟨by decide +kernel, by decide +kernel⟩
  have hunder : (crowded [pixelWindow 0, pixelWindow 1] [pixelSurface 7]).Under
      (pixelSurface 7).frame := by decide +kernel
  refine (hit_eq_topmost_iff ⟨by decide +kernel, by decide +kernel, by decide +kernel,
    by decide +kernel⟩ (by decide +kernel) hpointer (eq_ok_of_toOption hdrawn)).mpr
    ⟨fun s hs => ?_, fun hno => absurd hunder (hno (pixelSurface 7) List.mem_cons_self)⟩
  obtain rfl : s = pixelSurface 7 := List.mem_singleton.mp (List.mem_of_find?_eq_some hs)
  exact ⟨pixelSurface 7, ⟨0, 0, by decide +kernel, by decide +kernel, rfl, by decide +kernel⟩,
    ⟨[], [], rfl, fun _ h => absurd h List.not_mem_nil⟩, rfl⟩

/-- What is found and what is seen, when all that is drawn fits. -/
private def foundAndSeen (c : Compositor) : Except Stop (Option Target × Option Target) := do
  let _ ← c.compose fun _ _ => 0
  let layers ← c.layers fun _ _ => 0
  return (← c.hit, topmost layers c.pointerIndex)

/-- The window that was clicked last is seen, and the other one is found; the newest surface is
seen, and the oldest one is found. -/
theorem found_behind : ∃ c d : Compositor,
    (Typed c ∧ 1 ≤ c.theme.buttonSize ∧ c.PointerOn ∧ Typed d ∧ 1 ≤ d.theme.buttonSize ∧
      d.PointerOn) ∧
    (∃ drawn layers, c.compose (fun _ _ => 0) = .ok drawn ∧ c.layers (fun _ _ => 0) = .ok layers ∧
      c.hit = .ok (some (.window 1)) ∧ topmost layers c.pointerIndex = some (.window 0)) ∧
    ∃ drawn layers, d.compose (fun _ _ => 0) = .ok drawn ∧ d.layers (fun _ _ => 0) = .ok layers ∧
      d.hit = .ok (some (.surface 7)) ∧ topmost layers d.pointerIndex = some (.surface 8) := by
  have hspread : ∀ {c : Compositor} {found seen : Option Target},
      (foundAndSeen c).toOption = some (found, seen) → ∃ drawn layers,
        c.compose (fun _ _ => 0) = .ok drawn ∧ c.layers (fun _ _ => 0) = .ok layers ∧
          c.hit = .ok found ∧ topmost layers c.pointerIndex = seen := by
    intro c found seen h
    obtain ⟨drawn, hdrawn, h⟩ := bind_eq_ok.mp (eq_ok_of_toOption h)
    obtain ⟨layers, hlayers, h⟩ := bind_eq_ok.mp h
    obtain ⟨target, hhit, h⟩ := bind_eq_ok.mp h
    obtain ⟨rfl, rfl⟩ := Prod.mk.inj (pure_eq_ok.mp h)
    exact ⟨drawn, layers, hdrawn, hlayers, hhit, rfl⟩
  refine ⟨crowded [pixelWindow 1, pixelWindow 0] [], crowded [] [pixelSurface 7, pixelSurface 8],
    ⟨⟨by decide +kernel, by decide +kernel, by decide +kernel, by decide +kernel⟩,
      by decide +kernel, ⟨by decide +kernel, by decide +kernel⟩,
      ⟨by decide +kernel, by decide +kernel, by decide +kernel, by decide +kernel⟩,
      by decide +kernel, ⟨by decide +kernel, by decide +kernel⟩⟩, ?_, ?_⟩
  · exact hspread (by decide +kernel)
  · exact hspread (by decide +kernel)

end ImagineOS.Display
