import Mathlib.Computability.Language

/-!
# Languages of separated items

A grammar rule `item (sep item)*` whose separators are single symbols that no item contains. A word
is in the language if and only if every piece between separators is an item (`mem_sepBy_iff`), so
that a property that holds of a word exactly if it holds of the pieces can be moved into the items
(`mem_sepBy_filter`).
-/

namespace ImagineOS

open Computability List Language

variable {α : Type} {p : α → Bool} {item item' l : Language α} {w : List α}

/-- The words of one symbol, which satisfies `p`. -/
def symbol (p : α → Bool) : Language α := {w | ∃ a, p a = true ∧ w = [a]}

/-- One or more items, with separators between them. -/
def sepBy (item sep : Language α) : Language α := item * (sep * item)∗

variable {a : α}

theorem mem_symbol : [a] ∈ symbol p ↔ p a = true := by
  constructor
  · rintro ⟨b, hb, heq⟩
    rw [(List.cons.inj heq).1]
    exact hb
  · exact fun h => ⟨a, h, rfl⟩

theorem mem_kstar_iff : w ∈ l∗ ↔ w = [] ∨ ∃ a ∈ l, ∃ b ∈ l∗, a ++ b = w := by
  have h := congrArg (w ∈ ·) (one_add_self_mul_kstar_eq_kstar l)
  simp only [mem_add, mem_one, mem_mul] at h
  exact h.symm.to_iff

theorem append_mem_kstar {a b : List α} (ha : a ∈ l) (hb : b ∈ l∗) : a ++ b ∈ l∗ :=
  mem_kstar_iff.mpr (Or.inr ⟨a, ha, b, hb, rfl⟩)

theorem separator_cases (p : α → Bool) (w : List α) :
    (∀ a ∈ w, p a = false) ∨
      ∃ v a rest, w = v ++ a :: rest ∧ (∀ b ∈ v, p b = false) ∧ p a = true := by
  induction w with
  | nil => exact Or.inl fun a ha => absurd ha not_mem_nil
  | cons b w ih =>
    by_cases hb : p b = true
    · exact Or.inr ⟨[], b, w, rfl, fun a ha => absurd ha not_mem_nil, hb⟩
    · have hb' : p b = false := by simpa using hb
      rcases ih with hnone | ⟨v, a, rest, rfl, hv, ha⟩
      · exact Or.inl (forall_mem_cons.mpr ⟨hb', hnone⟩)
      · exact Or.inr ⟨b :: v, a, rest, rfl, forall_mem_cons.mpr ⟨hb', hv⟩, ha⟩

variable {P : List α → Prop}

theorem separator_induction (p : α → Bool) (hnone : ∀ v, (∀ a ∈ v, p a = false) → P v)
    (hsome : ∀ v a rest, (∀ b ∈ v, p b = false) → p a = true → P rest → P (v ++ a :: rest))
    (w : List α) : P w := by
  induction hn : w.length using Nat.strong_induction_on generalizing w with
  | _ n ih =>
    subst hn
    rcases separator_cases p w with h | ⟨v, a, rest, rfl, hv, ha⟩
    · exact hnone w h
    · exact hsome v a rest hv ha
        (ih _ (by simp only [length_append, length_cons]; omega) rest rfl)

variable {v : List α}

theorem forall_splitOnP_append {rest : List α} (hv : ∀ b ∈ v, p b = false) (ha : p a = true) :
    (∀ piece ∈ (v ++ a :: rest).splitOnP p, P piece) ↔
      P v ∧ ∀ piece ∈ rest.splitOnP p, P piece := by
  rw [splitOnP_append_cons_of_forall_mem hv a ha, forall_mem_cons]

theorem not_of_mem_splitOnP (w : List α) : ∀ v ∈ w.splitOnP p, ∀ a ∈ v, p a = false := by
  induction w using separator_induction p with
  | hnone w hw =>
    rw [splitOnP_eq_singleton hw]
    simpa using hw
  | hsome v a rest hv ha ih => exact (forall_splitOnP_append hv ha).mpr ⟨hv, ih⟩

theorem exists_mem_splitOnP {c : α} (hc : c ∈ w) (hp : p c = false) :
    ∃ v ∈ w.splitOnP p, c ∈ v := by
  induction w using separator_induction p with
  | hnone w hw =>
    rw [splitOnP_eq_singleton hw]
    exact ⟨w, mem_singleton_self w, hc⟩
  | hsome v a rest hv ha ih =>
    rw [splitOnP_append_cons_of_forall_mem hv a ha]
    rcases mem_append.mp hc with hc | hc
    · exact ⟨v, mem_cons_self, hc⟩
    · have hrest : c ∈ rest := (mem_cons.mp hc).resolve_left fun heq => by
        rw [heq, ha] at hp
        cases hp
      obtain ⟨piece, hpiece, hmem⟩ := ih hrest
      exact ⟨piece, mem_cons_of_mem v hpiece, hmem⟩

/-- **The pieces between separators are the items.** -/
theorem mem_sepBy_iff (hitem : ∀ v ∈ item, ∀ a ∈ v, p a = false) :
    w ∈ sepBy item (symbol p) ↔ ∀ piece ∈ w.splitOnP p, piece ∈ item := by
  constructor
  · intro h
    obtain ⟨a, ha, b, hb, rfl⟩ := mem_mul.mp h
    obtain ⟨chunks, rfl, hchunks⟩ := mem_kstar.mp hb
    clear h hb
    induction chunks generalizing a with
    | nil =>
      rw [flatten_nil, append_nil, splitOnP_eq_singleton (hitem a ha)]
      simpa using ha
    | cons chunk chunks ih =>
      obtain ⟨hchunk, hrest⟩ := forall_mem_cons.mp hchunks
      obtain ⟨s, ⟨c, hc, rfl⟩, b, hb, rfl⟩ := mem_mul.mp hchunk
      rw [flatten_cons, append_assoc, singleton_append, forall_splitOnP_append (hitem a ha) hc]
      exact ⟨ha, ih b hb hrest⟩
  · refine separator_induction (P := fun w => (∀ piece ∈ w.splitOnP p, piece ∈ item) →
      w ∈ sepBy item (symbol p)) p (fun v hv h => ?_) (fun v a rest hv ha ih h => ?_) w
    · rw [splitOnP_eq_singleton hv] at h
      exact mem_mul.mpr ⟨v, h v mem_cons_self, [], nil_mem_kstar _, append_nil v⟩
    · obtain ⟨hfirst, hrest⟩ := (forall_splitOnP_append hv ha).mp h
      obtain ⟨b, hb, c, hc, rfl⟩ := mem_mul.mp (ih hrest)
      refine mem_mul.mpr ⟨v, hfirst, [a] ++ b ++ c, append_mem_kstar ?_ hc, by simp⟩
      exact append_mem_mul (mem_symbol.mpr ha) hb

theorem mem_sepBy_of_none (hitem : ∀ v ∈ item, ∀ a ∈ v, p a = false) (hw : ∀ a ∈ w, p a = false) :
    w ∈ sepBy item (symbol p) ↔ w ∈ item := by
  rw [mem_sepBy_iff hitem, splitOnP_eq_singleton hw]
  simp

theorem mem_sepBy_append (hitem : ∀ v ∈ item, ∀ a ∈ v, p a = false) {rest : List α}
    (hv : ∀ b ∈ v, p b = false) (ha : p a = true) :
    v ++ a :: rest ∈ sepBy item (symbol p) ↔ v ∈ item ∧ rest ∈ sepBy item (symbol p) := by
  rw [mem_sepBy_iff hitem, mem_sepBy_iff hitem, forall_splitOnP_append hv ha]

theorem mem_sepBy_filter (hitem : ∀ v ∈ item, ∀ a ∈ v, p a = false)
    (hfilter : ∀ v, v ∈ item' ↔ v ∈ item ∧ P v)
    (hP : ∀ v a rest, p a = true → (P (v ++ a :: rest) ↔ P v ∧ P rest)) :
    w ∈ sepBy item' (symbol p) ↔ w ∈ sepBy item (symbol p) ∧ P w := by
  have hitem' : ∀ v ∈ item', ∀ a ∈ v, p a = false := fun v hv => hitem v ((hfilter v).mp hv).1
  refine separator_induction (P := fun w => w ∈ sepBy item' (symbol p) ↔
    w ∈ sepBy item (symbol p) ∧ P w) p (fun v hv => ?_) (fun v a rest hv ha ih => ?_) w
  · rw [mem_sepBy_of_none hitem' hv, mem_sepBy_of_none hitem hv, hfilter]
  · rw [mem_sepBy_append hitem' hv ha, mem_sepBy_append hitem hv ha, hfilter, ih, hP v a rest ha]
    tauto

theorem sepBy_induction (hitem : ∀ v ∈ item, ∀ a ∈ v, p a = false) (hone : ∀ v ∈ item, P v)
    (hmore : ∀ v ∈ item, ∀ a rest, p a = true → P rest → P (v ++ a :: rest))
    (h : w ∈ sepBy item (symbol p)) : P w := by
  refine separator_induction (P := fun w => w ∈ sepBy item (symbol p) → P w) p
    (fun v hv h => ?_) (fun v a rest hv ha ih h => ?_) w h
  · exact hone v ((mem_sepBy_of_none hitem hv).mp h)
  · obtain ⟨hfirst, hrest⟩ := (mem_sepBy_append hitem hv ha).mp h
    exact hmore v hfirst a rest ha (ih hrest)

/-! ### Pieces that are not empty -/

/-- The pieces that are not empty. -/
def pieces (p : α → Bool) (w : List α) : List (List α) := (w.splitOnP p).filter (· ≠ [])

theorem pieces_of_none (hv : ∀ a ∈ v, p a = false) :
    pieces p v = if v = [] then [] else [v] := by
  rw [pieces, splitOnP_eq_singleton hv]
  split <;> simp_all

theorem pieces_append_cons (hv : ∀ a ∈ v, p a = false) (ha : p a = true)
    (rest : List α) : pieces p (v ++ a :: rest) = pieces p v ++ pieces p rest := by
  rw [pieces, splitOnP_append_cons_of_forall_mem hv a ha, pieces, pieces,
    splitOnP_eq_singleton hv, ← singleton_append, filter_append]

/-- **Pieces have what is no separator.** -/
theorem flatten_pieces (p : α → Bool) (w : List α) :
    (pieces p w).flatten = w.filter fun a => !p a := by
  have hkeep : ∀ v : List α, (∀ a ∈ v, p a = false) → (v.filter fun a => !p a) = v := fun v hv =>
    filter_eq_self.mpr fun a ha => by rw [hv a ha]; rfl
  induction w using separator_induction p with
  | hnone v hv =>
    rw [pieces_of_none hv, hkeep v hv]
    split
    · rename_i hnil
      rw [hnil, flatten_nil]
    · simp
  | hsome v a rest hv ha ih =>
    have hv' : (pieces p v).flatten = v := by
      rw [pieces_of_none hv]
      split <;> simp_all
    rw [pieces_append_cons hv ha, flatten_append, ih, hv', filter_append, hkeep v hv,
      filter_cons_of_neg (by simp [ha])]

theorem length_pieces_le (p : α → Bool) (v w : List α) :
    (pieces p v).length ≤ (pieces p (v ++ w)).length := by
  induction v using separator_induction p with
  | hnone v hv =>
    rw [pieces_of_none hv]
    split
    · exact Nat.zero_le _
    · rename_i hne
      -- Something of the text is no separator.
      have hflat := flatten_pieces p (v ++ w)
      refine length_pos_of_ne_nil fun hnil => hne ?_
      rw [hnil, flatten_nil, filter_append] at hflat
      have hnone := (append_eq_nil_iff.mp hflat.symm).1
      rwa [filter_eq_self.mpr fun a ha => by rw [hv a ha]; rfl] at hnone
  | hsome v a rest hv ha ih =>
    rw [append_assoc, cons_append, pieces_append_cons hv ha, pieces_append_cons hv ha,
      length_append, length_append]
    exact Nat.add_le_add_left ih _

theorem pieces_append_separators (hw : ∀ a ∈ w, p a = true) :
    pieces p (v ++ w) = pieces p v := by
  induction v using separator_induction p with
  | hnone v hv =>
    cases w with
    | nil => rw [append_nil]
    | cons a w =>
      have hrest : pieces p w = [] := by
        have hflat := flatten_pieces p w
        rw [filter_eq_nil_iff.mpr fun b hb => by simp [hw b (mem_cons_of_mem a hb)]]
          at hflat
        refine eq_nil_iff_forall_not_mem.mpr fun u hu => ?_
        have hnil := flatten_eq_nil_iff.mp hflat u hu
        simp [pieces, hnil] at hu
      rw [pieces_append_cons hv (hw a mem_cons_self), hrest, append_nil]
  | hsome v a rest hv ha ih =>
    rw [append_assoc, cons_append, pieces_append_cons hv ha, pieces_append_cons hv ha, ih]

/-- **What more text has no more pieces for** is separators. -/
theorem pieces_append_eq_iff :
    pieces p (v ++ w) = pieces p v ↔ ∀ a ∈ w, p a = true := by
  refine ⟨fun h a ha => ?_, pieces_append_separators⟩
  have hflat := congrArg List.flatten h
  rw [flatten_pieces, flatten_pieces, filter_append] at hflat
  simpa using filter_eq_nil_iff.mp (append_right_eq_self.mp hflat) a ha

end ImagineOS
