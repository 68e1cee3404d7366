import ImagineOS.Shell.Fields

/-!
# Shell: fields at full length

The tables cut what does not fit them: a field has 64 bytes, a word 8 fields. The text of a word is
cut where a literal segment does not fit, or where a variable fills the field, and the rest of the
word is lost without an error.
-/

namespace ImagineOS.Shell

open List

variable {environment : Environment} {word : Word}

/-- A word has a part that is not quoted. -/
def Word.splits (word : Word) : Bool := word.segments.any (·.kind = .unquoted)

/-- **The fields of a word** by the rules of `expand`, at full length. -/
def fullFields (environment : Environment) (word : Word) : List (List UInt8) :=
  if word.segments = [] then []
  else if word.splits then pieces isWhitespace (wordText environment word)
  else [wordText environment word]

/-- Where the text of segments is cut, after so many bytes. -/
def cutAt (environment : Environment) : List Segment → ℕ → Option ℕ
  | [], _ => none
  | segment :: segments, before =>
    let after := before + (segmentText environment segment).length
    if after ≤ fieldSize then cutAt environment segments after
    else some (if segment.copiesVariable then fieldSize else before)

/-- A word loses nothing: there is room for its fields, and only white space is cut. -/
structure Whole (environment : Environment) (word : Word) : Prop where
  cut : ∀ k, cutAt environment word.segments 0 = some k →
    word.splits ∧ ((wordText environment word).drop k).all isWhitespace
  count : (fullFields environment word).length ≤ maxFields

/-! ### The text that is kept -/

/-- **What is kept** of a text: all of it, or what is before the cut. -/
theorem expandSegments_cut {current : List UInt8} (hlen : current.length ≤ fieldSize)
    (segments : List Segment) (produced : Bool) :
    (expandSegments environment segments (current, produced)).1 =
      match cutAt environment segments current.length with
      | none => current ++ segments.flatMap (segmentText environment)
      | some k => (current ++ segments.flatMap (segmentText environment)).take k := by
  induction segments generalizing current produced with
  | nil => simp [expandSegments, cutAt]
  | cons segment segments ih =>
    rw [expandSegments, cutAt, flatMap_cons, ← append_assoc]
    have hafter : (current ++ segmentText environment segment).length =
        current.length + (segmentText environment segment).length := length_append
    split
    · rename_i hcopies
      have htext : expandBytes environment 0 segment.bytes = segmentText environment segment := by
        rw [segmentText, if_pos hcopies]
      rw [expandSegment, htext]
      by_cases hfit : current.length + (segmentText environment segment).length ≤ fieldSize
      · rw [take_of_length_le (by rwa [hafter]), if_pos hfit, ← hafter]
        exact ih (by rwa [hafter]) true
      · have hfull : ((current ++ segmentText environment segment).take fieldSize).length =
            fieldSize := by
          rw [length_take, hafter]
          omega
        rw [expandSegments_full segments hfull, if_neg hfit]
        exact (take_append_of_le_length (by omega)).symm
    · rename_i hcopies
      have htext : segment.bytes = segmentText environment segment := by
        rw [segmentText, if_neg hcopies]
      rw [htext]
      by_cases hfit : current.length + (segmentText environment segment).length ≤ fieldSize
      · rw [if_neg (by omega), if_pos hfit, ← hafter]
        exact ih (by rwa [hafter]) true
      · rw [if_pos (by omega), if_neg hfit]
        dsimp only
        rw [append_assoc, take_left]

theorem expandSegments_begun {current : List UInt8} (segments : List Segment) :
    (expandSegments environment segments (current, true)).2 = true := by
  induction segments generalizing current with
  | nil => rfl
  | cons segment segments ih =>
    rw [expandSegments]
    split
    · exact ih
    · split
      · rfl
      · exact ih

theorem expandSegments_unproduced {segments : List Segment}
    (h : (expandSegments environment segments ([], false)).2 = false) :
    segments = [] ∨ cutAt environment segments 0 = some 0 := by
  cases segments with
  | nil => exact .inl rfl
  | cons segment segments =>
    rw [expandSegments] at h
    split at h
    · rw [expandSegments_begun] at h
      cases h
    · rename_i hcopies
      split at h
      · rename_i hlong
        refine .inr ?_
        have htext : segment.bytes = segmentText environment segment := by
          rw [segmentText, if_neg hcopies]
        rw [htext, length_nil] at hlong
        rw [cutAt, if_neg (by omega), if_neg hcopies]
      · rw [expandSegments_begun] at h
        cases h

/-! ### The fields that are kept -/

theorem foldl_pushField_take {input done : List (List UInt8)}
    (hsize : ∀ field ∈ input, field.length ≤ fieldSize) (hdone : done.length ≤ maxFields) :
    input.foldl pushField done = done ++ input.take (maxFields - done.length) := by
  induction input generalizing done with
  | nil => simp
  | cons field input ih =>
    have hfield := hsize field mem_cons_self
    have hrest : ∀ f ∈ input, f.length ≤ fieldSize := fun f hf =>
      hsize f (mem_cons_of_mem field hf)
    rw [foldl_cons, pushField]
    by_cases hfull : done.length = maxFields
    · rw [if_pos (.inl hfull), ih hrest hdone, hfull, Nat.sub_self, take_zero, take_zero]
    · have hnot : ¬ (done.length = maxFields ∨ field.length > fieldSize) := by omega
      have hroom : (done ++ [field]).length ≤ maxFields := by
        rw [length_append, length_singleton]
        omega
      rw [if_neg hnot, ih hrest hroom, length_append, length_singleton,
        show maxFields - done.length = maxFields - (done.length + 1) + 1 by omega,
        take_succ_cons, append_assoc, singleton_append]

theorem splitFields_eq {bytes : List UInt8} (hlen : bytes.length ≤ fieldSize) :
    splitFields bytes = (pieces isWhitespace bytes).take maxFields := by
  have hsize : ∀ field ∈ pieces isWhitespace bytes, field.length ≤ fieldSize := fun field hfield =>
    (length_le_of_mem_splitOnP bytes field (mem_of_mem_filter hfield)).trans hlen
  exact (foldl_pushField_take hsize (Nat.zero_le _)).trans (nil_append _)

/-- What is kept of the text of a word. -/
def keptText (environment : Environment) (word : Word) : List UInt8 :=
  match cutAt environment word.segments 0 with
  | none => wordText environment word
  | some k => (wordText environment word).take k

theorem keptText_append (environment : Environment) (word : Word) :
    ∃ lost, keptText environment word ++ lost = wordText environment word ∧
      (lost = [] ∨ ∃ k, cutAt environment word.segments 0 = some k ∧
        lost = (wordText environment word).drop k) := by
  unfold keptText
  split
  · exact ⟨[], append_nil _, .inl rfl⟩
  · rename_i k hk
    exact ⟨_, take_append_drop .., .inr ⟨k, hk, rfl⟩⟩

theorem expandSegments_kept (environment : Environment) (word : Word) :
    (expandSegments environment word.segments ([], false)).1 = keptText environment word := by
  rw [expandSegments_cut (Nat.zero_le _), nil_append]
  rfl

theorem length_keptText_le (environment : Environment) (word : Word) :
    (keptText environment word).length ≤ fieldSize := by
  have hall : ∀ (segments : List Segment) (current : List UInt8) (produced : Bool),
      current.length ≤ fieldSize →
        (expandSegments environment segments (current, produced)).1.length ≤ fieldSize := by
    intro segments
    induction segments with
    | nil => exact fun _ _ h => h
    | cons segment segments ih =>
      intro current produced hlen
      rw [expandSegments]
      split
      · exact ih _ true (length_take_le ..)
      · split
        · exact hlen
        · exact ih _ true (by rw [length_append]; omega)
  rw [← expandSegments_kept]
  exact hall word.segments [] false (Nat.zero_le _)

theorem lt_of_cutAt {segments : List Segment} {before k : ℕ} (hbefore : before ≤ fieldSize)
    (h : cutAt environment segments before = some k) :
    k < before + (segments.flatMap (segmentText environment)).length := by
  induction segments generalizing before with
  | nil => cases h
  | cons segment segments ih =>
    rw [flatMap_cons, length_append]
    rw [cutAt] at h
    split at h
    · rename_i hfit
      have := ih hfit h
      omega
    · rename_i hlong
      split at h
      · obtain rfl := Option.some.inj h
        omega
      · obtain rfl := Option.some.inj h
        omega

theorem keptText_of_cut {k : ℕ} (h : cutAt environment word.segments 0 = some k) :
    keptText environment word = (wordText environment word).take k := by
  rw [keptText, h]

theorem keptText_of_not_cut (h : cutAt environment word.segments 0 = none) :
    keptText environment word = wordText environment word := by
  rw [keptText, h]

theorem expand_of_splits (h : word.splits = true) :
    expand environment word =
      (pieces isWhitespace (keptText environment word)).take maxFields := by
  rw [expand, ← Word.splits, h]
  dsimp only
  rw [if_pos rfl, expandSegments_kept, splitFields_eq (length_keptText_le environment word)]
  split
  · rename_i hproduced
    rcases expandSegments_unproduced (by simpa using hproduced) with hnil | hcut
    · rw [Word.splits, hnil] at h
      cases h
    · rw [keptText_of_cut hcut]
      rfl
  · rfl

theorem expand_of_quoted (h : word.splits = false) :
    expand environment word = [keptText environment word] ∧ word.segments ≠ [] ∨
      expand environment word = [] ∧
        (word.segments = [] ∨ cutAt environment word.segments 0 = some 0) := by
  rw [expand, ← Word.splits, h]
  dsimp only
  rw [expandSegments_kept]
  split
  · rename_i hproduced
    exact .inr ⟨rfl, expandSegments_unproduced (by simpa using hproduced)⟩
  · rename_i hproduced
    have hlen := length_keptText_le environment word
    rw [if_neg Bool.false_ne_true, pushField, if_neg (by simp [maxFields, Nat.not_lt.mpr hlen])]
    refine .inl ⟨rfl, fun hnil => hproduced ?_⟩
    rw [hnil]
    rfl

theorem fullFields_of_splits (h : word.splits = true) :
    fullFields environment word = pieces isWhitespace (wordText environment word) := by
  have hne : word.segments ≠ [] := by
    rintro hnil
    rw [Word.splits, hnil] at h
    cases h
  rw [fullFields, if_neg hne, if_pos h]

theorem fullFields_of_quoted (h : word.splits = false) (hne : word.segments ≠ []) :
    fullFields environment word = [wordText environment word] := by
  rw [fullFields, if_neg hne, h, if_neg Bool.false_ne_true]

theorem pieces_kept_eq_iff (environment : Environment) (word : Word) :
    pieces isWhitespace (wordText environment word) =
        pieces isWhitespace (keptText environment word) ↔
      ∀ k, cutAt environment word.segments 0 = some k →
        ((wordText environment word).drop k).all isWhitespace := by
  cases hcut : cutAt environment word.segments 0 with
  | none => simp [keptText_of_not_cut hcut]
  | some k =>
    have h := @pieces_append_eq_iff _ isWhitespace ((wordText environment word).drop k)
      ((wordText environment word).take k)
    rw [take_append_drop, ← all_eq_true] at h
    rw [keptText_of_cut hcut, h]
    simp

theorem length_expand_le (environment : Environment) (word : Word) :
    (expand environment word).length ≤ (fullFields environment word).length := by
  cases h : word.splits with
  | true =>
    obtain ⟨lost, hlost, -⟩ := keptText_append environment word
    rw [expand_of_splits h, fullFields_of_splits h, ← hlost]
    exact (length_take_le' ..).trans (length_pieces_le _ _ _)
  | false =>
    rcases @expand_of_quoted environment word h with ⟨heq, hne⟩ | ⟨heq, -⟩
    · rw [heq, fullFields_of_quoted h hne]
      exact Nat.le_refl _
    · rw [heq]
      exact Nat.zero_le _

/-- **Nothing is lost** of a word if and only if its fields are those at full length. -/
theorem expand_eq_fullFields_iff (environment : Environment) (word : Word) :
    expand environment word = fullFields environment word ↔ Whole environment word := by
  cases h : word.splits with
  | true =>
    have hfull := @fullFields_of_splits environment word h
    have hkept := pieces_kept_eq_iff environment word
    rw [expand_of_splits h]
    constructor
    · intro heq
      have hcount : (fullFields environment word).length ≤ maxFields :=
        heq ▸ length_take_le ..
      -- At most 8 fields are kept, so none of the kept ones is lost.
      obtain ⟨lost, hlost, -⟩ := keptText_append environment word
      have hle := length_pieces_le isWhitespace (keptText environment word) lost
      rw [hlost, ← hfull] at hle
      rw [take_of_length_le (hle.trans hcount), hfull] at heq
      exact ⟨fun k hk => ⟨h, hkept.mp heq.symm k hk⟩, hcount⟩
    · intro hwhole
      have heq := hkept.mpr fun k hk => (hwhole.cut k hk).2
      have hcount := hwhole.count
      rw [hfull] at hcount ⊢
      rw [heq] at hcount ⊢
      exact take_of_length_le hcount
  | false =>
    have huncut : Whole environment word → cutAt environment word.segments 0 = none :=
      fun hwhole => Option.eq_none_iff_forall_not_mem.mpr fun k hk => by
        have hsplits := (hwhole.cut k hk).1
        rw [h] at hsplits
        cases hsplits
    rcases @expand_of_quoted environment word h with ⟨heq, hne⟩ | ⟨heq, hnone⟩
    · have hfull := @fullFields_of_quoted environment word h hne
      rw [heq, hfull]
      constructor
      · intro htext
        refine ⟨fun k hk => ?_, by rw [hfull, length_singleton]; decide⟩
        have hlt := lt_of_cutAt (Nat.zero_le _) hk
        rw [Nat.zero_add] at hlt
        have hlen := congrArg List.length (singleton_injective htext)
        rw [keptText_of_cut hk, length_take, wordText] at hlen
        omega
      · exact fun hwhole => congrArg (fun text => [text]) (keptText_of_not_cut (huncut hwhole))
    · rw [heq]
      rcases hnone with hnil | hcut
      · have hfull : fullFields environment word = [] := if_pos hnil
        refine iff_of_true hfull.symm ⟨fun k hk => ?_, by rw [hfull]; decide⟩
        rw [hnil] at hk
        cases hk
      · have hne : word.segments ≠ [] := by
          rintro hnil
          rw [hnil] at hcut
          cases hcut
        rw [fullFields_of_quoted h hne]
        refine iff_of_false (by simp) fun hwhole => ?_
        rw [huncut hwhole] at hcut
        cases hcut

/-! ### What is lost costs something -/

theorem cost_eq (words : List (List UInt8)) :
    cost words = weight words.flatten + words.length := by
  induction words with
  | nil => rfl
  | cons word words ih =>
    rw [cost_cons, ih, flatten_cons, weight_append, length_cons]
    omega

theorem eq_of_cost {vs ws : List (List UInt8)} (h : vs.Sublist ws) (hcost : cost ws ≤ cost vs) :
    vs = ws := by
  induction h with
  | slnil => rfl
  | cons word h _ =>
    have hle := cost_le h
    rw [cost_cons] at hcost
    omega
  | cons_cons word _ ih =>
    rw [cost_cons, cost_cons] at hcost
    rw [ih (by omega)]

theorem cost_pieces_le (kept lost : List UInt8) :
    cost (pieces isWhitespace kept) ≤ cost (pieces isWhitespace (kept ++ lost)) ∧
      (cost (pieces isWhitespace (kept ++ lost)) ≤ cost (pieces isWhitespace kept) →
        pieces isWhitespace (kept ++ lost) = pieces isWhitespace kept) := by
  have hcount := length_pieces_le isWhitespace kept lost
  have hsublist : (kept.filter fun b => !isWhitespace b).Sublist
      ((kept ++ lost).filter fun b => !isWhitespace b) :=
    (sublist_append_left kept lost).filter _
  have hweight := weight_le hsublist
  rw [cost_eq, cost_eq, flatten_pieces, flatten_pieces]
  refine ⟨by omega, fun hcost => pieces_append_eq_iff.mpr fun b hb => ?_⟩
  have heq := eq_of_weight hsublist (by omega)
  rw [filter_append] at heq
  simpa using filter_eq_nil_iff.mp (append_right_eq_self.mp heq.symm) b hb

/-- **The fields of a word** cost no more than at full length, and less if something is lost. -/
theorem cost_expand_le (environment : Environment) (word : Word) :
    cost (expand environment word) ≤ cost (fullFields environment word) ∧
      (cost (fullFields environment word) ≤ cost (expand environment word) →
        expand environment word = fullFields environment word) := by
  obtain ⟨lost, hlost, -⟩ := keptText_append environment word
  cases h : word.splits with
  | true =>
    obtain ⟨hle, heq⟩ := cost_pieces_le (keptText environment word) lost
    have htake := cost_le (take_sublist maxFields
      (pieces isWhitespace (keptText environment word)))
    rw [expand_of_splits h, fullFields_of_splits h, ← hlost]
    refine ⟨htake.trans hle, fun hcost => ?_⟩
    have hpieces := heq (hcost.trans htake)
    rw [hpieces] at hcost ⊢
    exact eq_of_cost (take_sublist ..) hcost
  | false =>
    rcases @expand_of_quoted environment word h with ⟨heq, hne⟩ | ⟨heq, hnone⟩
    · have hsublist : (keptText environment word).Sublist (wordText environment word) := by
        conv_rhs => rw [← hlost]
        exact sublist_append_left _ _
      have hweight := weight_le hsublist
      rw [heq, fullFields_of_quoted h hne]
      simp only [cost_cons, cost_nil]
      refine ⟨by omega, fun hcost => ?_⟩
      rw [eq_of_weight hsublist (by omega)]
    · rw [heq]
      refine ⟨Nat.zero_le _, fun hcost => ?_⟩
      rw [cost_eq] at hcost
      exact (eq_nil_of_length_eq_zero (by rw [cost_nil] at hcost; omega)).symm

/-! ### Words of a command -/

/-- **The argument vector** of a command: the fields of its words at full length. -/
def fullVector (environment : Environment) (command : Command) : List (List UInt8) :=
  command.words.flatMap (fullFields environment)

/-- A command loses nothing in the tables of `execve_stage`. -/
structure VectorFits (environment : Environment) (command : Command) : Prop where
  whole : ∀ word ∈ command.words, Whole environment word
  count : (fullVector environment command).length ≤ maxWords

section FlatMap

variable {α β : Type} {f g : α → List β} {l : List α} {n : ℕ}

theorem length_flatMap_le (h : ∀ x ∈ l, (f x).length ≤ (g x).length) :
    (l.flatMap f).length ≤ (l.flatMap g).length := by
  induction l with
  | nil => exact Nat.le_refl _
  | cons x l ih =>
    rw [forall_mem_cons] at h
    rw [flatMap_cons, flatMap_cons, length_append, length_append]
    exact Nat.add_le_add h.1 (ih h.2)

theorem eq_of_flatMap_eq (hle : ∀ x ∈ l, (f x).length ≤ (g x).length)
    (h : l.flatMap f = l.flatMap g) : ∀ x ∈ l, f x = g x := by
  induction l with
  | nil => exact fun x hx => absurd hx not_mem_nil
  | cons x l ih =>
    rw [forall_mem_cons] at hle
    rw [flatMap_cons, flatMap_cons] at h
    have hlength := congrArg List.length h
    have htail := length_flatMap_le hle.2
    rw [length_append, length_append] at hlength
    obtain ⟨hx, hl⟩ := append_inj h (by omega)
    exact forall_mem_cons.mpr ⟨hx, ih hle.2 hl⟩

theorem take_flatMap_eq_iff (hle : ∀ x ∈ l, (f x).length ≤ (g x).length) :
    (l.flatMap f).take n = l.flatMap g ↔ (∀ x ∈ l, f x = g x) ∧ (l.flatMap g).length ≤ n := by
  constructor
  · intro h
    have hn : (l.flatMap g).length ≤ n := h ▸ length_take_le ..
    have hfull := length_flatMap_le hle
    rw [take_of_length_le (hfull.trans hn)] at h
    exact ⟨eq_of_flatMap_eq hle h, hn⟩
  · rintro ⟨heq, hn⟩
    rw [flatMap_congr heq, take_of_length_le hn]

end FlatMap

/-- **The words of a stage** are the vector if and only if it fits. -/
theorem stageArguments_eq_iff (environment : Environment) (command : Command) :
    (stageArguments environment command).words = fullVector environment command ↔
      VectorFits environment command := by
  have h := @take_flatMap_eq_iff _ _ (expand environment) (fullFields environment) command.words
    maxWords fun word _ => length_expand_le environment word
  refine h.trans ⟨fun ⟨heq, hcount⟩ => ⟨fun word hword => ?_, hcount⟩, fun hfit => ⟨?_, hfit.count⟩⟩
  · exact (expand_eq_fullFields_iff environment word).mp (heq word hword)
  · exact fun word hword => (expand_eq_fullFields_iff environment word).mpr (hfit.whole word hword)

/-- Words of a stage that cost as much are the vector. -/
theorem stageArguments_eq_of_cost {environment : Environment} {command : Command}
    (h : cost (fullVector environment command) ≤
      cost (stageArguments environment command).words) :
    (stageArguments environment command).words = fullVector environment command := by
  have hwords : ∀ words : List Word,
      cost (words.flatMap (expand environment)) ≤ cost (words.flatMap (fullFields environment)) ∧
      (cost (words.flatMap (fullFields environment)) ≤ cost (words.flatMap (expand environment)) →
        words.flatMap (expand environment) = words.flatMap (fullFields environment)) := by
    intro words
    induction words with
    | nil => exact ⟨Nat.le_refl _, fun _ => rfl⟩
    | cons word words ih =>
      obtain ⟨hle, heq⟩ := cost_expand_le environment word
      obtain ⟨ihle, iheq⟩ := ih
      simp only [flatMap_cons, cost_append]
      exact ⟨by omega, fun hcost => congrArg₂ _ (heq (by omega)) (iheq (by omega))⟩
  have htake := take_sublist maxWords (command.words.flatMap (expand environment))
  have hall := (hwords command.words).2 (h.trans (cost_le htake))
  have hstage : (stageArguments environment command).words =
      (command.words.flatMap (expand environment)).take maxWords := rfl
  rw [hstage, hall] at h
  rw [hstage, hall]
  exact eq_of_cost (take_sublist ..) h

end ImagineOS.Shell
