import Mathlib.Data.List.Induction

/-!
# Painting

A drawing is the list of its writes into a buffer. What a buffer holds after a drawing depends on
what it held before only where nothing was written (`paint_of_mem`), and if every write is what a
picture has at its place, then the buffer holds the picture there (`paint_picture`).
-/

namespace ImagineOS

open Function List

variable {ι α : Type} [DecidableEq ι]

/-- Writes are made one after another. -/
def paint (writes : List (ι × α)) (b : ι → α) : ι → α :=
  writes.foldl (fun b w => Function.update b w.1 w.2) b

variable {writes : List (ι × α)} {b b' : ι → α} {i : ι}

theorem paint_cons (w : ι × α) (writes : List (ι × α)) (b : ι → α) :
    paint (w :: writes) b = paint writes (Function.update b w.1 w.2) := rfl

theorem paint_of_not_mem (h : i ∉ writes.map Prod.fst) : paint writes b i = b i := by
  induction writes generalizing b with
  | nil => rfl
  | cons w writes ih =>
    rw [map_cons, mem_cons, not_or] at h
    rw [paint_cons, ih h.2, update_of_ne h.1]

theorem paint_congr (h : b i = b' i) : paint writes b i = paint writes b' i := by
  induction writes generalizing b b' with
  | nil => exact h
  | cons w writes ih =>
    rw [paint_cons, paint_cons]
    by_cases hi : i = w.1
    · subst hi
      exact ih (by rw [update_self, update_self])
    · exact ih (by rw [update_of_ne hi, update_of_ne hi, h])

theorem paint_of_mem (h : i ∈ writes.map Prod.fst) : paint writes b i = paint writes b' i := by
  induction writes generalizing b b' with
  | nil => cases h
  | cons w writes ih =>
    rw [paint_cons, paint_cons]
    by_cases hi : i = w.1
    · subst hi
      exact paint_congr (by rw [update_self, update_self])
    · exact ih ((mem_cons.mp h).resolve_left hi)

theorem paint_eq (h : ∀ i, i ∉ writes.map Prod.fst → b i = b' i) :
    paint writes b = paint writes b' := by
  funext i
  by_cases hi : i ∈ writes.map Prod.fst
  · exact paint_of_mem hi
  · exact paint_congr (h i hi)

theorem paint_paint (writes : List (ι × α)) (b : ι → α) :
    paint writes (paint writes b) = paint writes b :=
  paint_eq fun _ hi => paint_of_not_mem hi

theorem paint_same (h : ∀ w ∈ writes, b w.1 = w.2) : paint writes b = b := by
  induction writes with
  | nil => rfl
  | cons w writes ih =>
    rw [paint_cons, ← h w mem_cons_self, update_eq_self]
    exact ih fun w hw => h w (mem_cons_of_mem _ hw)

/-- **A picture** is in the buffer where it was written. -/
theorem paint_picture {picture : ι → α} (h : ∀ w ∈ writes, w.2 = picture w.1)
    (hi : i ∈ writes.map Prod.fst) : paint writes b i = picture i := by
  have hkept : ∀ (writes : List (ι × α)) (b : ι → α), (∀ w ∈ writes, w.2 = picture w.1) →
      b i = picture i → paint writes b i = picture i := by
    intro writes
    induction writes with
    | nil => exact fun b _ hb => hb
    | cons w writes ih =>
      intro b h hb
      rw [paint_cons]
      refine ih _ (fun w hw => h w (mem_cons_of_mem _ hw)) ?_
      by_cases hw : i = w.1
      · subst hw
        rw [update_self, h w mem_cons_self]
      · rw [update_of_ne hw, hb]
  induction writes generalizing b with
  | nil => cases hi
  | cons w writes ih =>
    have hrest : ∀ w ∈ writes, w.2 = picture w.1 := fun w hw => h w (mem_cons_of_mem _ hw)
    rw [paint_cons]
    by_cases hw : i = w.1
    · subst hw
      exact hkept writes _ hrest (by rw [update_self, h w mem_cons_self])
    · exact ih hrest ((mem_cons.mp hi).resolve_left hw)

/-! ### Layers -/

section Layers

variable {γ : Type} {layers : List (γ × List (ι × α))} {layer : γ × List (ι × α)}

/-- The last layer that writes to a place. -/
def topLayer (i : ι) (layers : List (γ × List (ι × α))) : Option (γ × List (ι × α)) :=
  (layers.filter fun layer => i ∈ layer.2.map Prod.fst).getLast?

theorem topLayer_append (below above : List (γ × List (ι × α))) :
    topLayer i (below ++ above) = (topLayer i above).or (topLayer i below) := by
  rw [topLayer, filter_append, List.getLast?_append]
  rfl

theorem topLayer_map {δ : Type} (name : γ → δ) (layers : List (γ × List (ι × α))) :
    topLayer i (layers.map fun layer => (name layer.1, layer.2)) =
      (topLayer i layers).map fun layer => (name layer.1, layer.2) := by
  rw [topLayer, filter_map, List.getLast?_map]
  rfl

end Layers

end ImagineOS
