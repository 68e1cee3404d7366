import ImagineOS.Shell.Parts
import Mathlib.Data.List.Forall2

/-!
# Shell: dollars that are quoted

A `$` between single quotes or behind a backslash stands for itself, and every other one that is
followed by a name is expanded. What the lexer tells the expansion is less: whether a segment has a
`$` that may be expanded. Between double quotes there may be both kinds, and then all of them are
expanded.
-/

namespace ImagineOS.Shell

open List Bool

/-- A quoted `$`. -/
def Mark.isQuoted (m : Mark) : Bool := m == .literal dollar

/-- A reference behind an active `$`. A quoted `$` is not part of one. -/
def markedReference (marks : List Mark) : List UInt8 × ℕ :=
  let (name, width) := parseReference (bytesOf marks)
  if (marks.take width).any Mark.isQuoted then ([], 0) else (name, width)

/-- What marks stand for: active dollars are expanded, and all other bytes are themselves. -/
def meaningLoop (environment : Environment) : ℕ → List Mark → List UInt8
  | _, [] => []
  | skip + 1, _ :: rest => meaningLoop environment skip rest
  | 0, .literal byte :: rest => byte :: meaningLoop environment 0 rest
  | 0, .active :: rest =>
    match markedReference rest with
    | ([], _) => dollar :: meaningLoop environment 0 rest
    | (name, width) => (environment.get name).getD [] ++ meaningLoop environment width rest

/-- What the parts of a word stand for. -/
def meaning (environment : Environment) (parts : List Part) : List UInt8 :=
  parts.flatMap fun p => meaningLoop environment 0 p.marks

/-- What a segment is expanded to. -/
def segmentText (environment : Environment) (segment : Segment) : List UInt8 :=
  if segment.copiesVariable then expandBytes environment 0 segment.bytes else segment.bytes

/-- What the segments of a word are expanded to, where there is room. -/
def wordText (environment : Environment) (word : Word) : List UInt8 :=
  word.segments.flatMap (segmentText environment)

/-- No reference that `expand_segment` finds has a quoted `$` in it. -/
def apartLoop : ℕ → List Mark → Bool
  | _, [] => true
  | skip + 1, _ :: rest => apartLoop skip rest
  | 0, m :: rest =>
    if m.byte ≠ dollar then apartLoop 0 rest
    else match parseReference (bytesOf rest) with
    | ([], _) => apartLoop 0 rest
    | (_, width) => !(m :: rest.take width).any Mark.isQuoted && apartLoop width rest

/-- **Quoted dollars are not taken for references.** -/
def Part.Apart (p : Part) : Prop := p.marks.any Mark.isActive = true → apartLoop 0 p.marks = true

instance (p : Part) : Decidable p.Apart := inferInstanceAs (Decidable (_ → _))

/-! ### The field of a word -/

section Field

variable {environment : Environment} {current : List UInt8} {segments : List Segment}

theorem expandSegments_full (segments : List Segment) (hfull : current.length = fieldSize)
    (produced : Bool) :
    (expandSegments environment segments (current, produced)).1 = current := by
  induction segments generalizing produced with
  | nil => rfl
  | cons segment segments ih =>
    have htake : expandSegment environment segment current = current := by
      rw [expandSegment, take_left' hfull]
    rw [expandSegments, htake]
    split
    · exact ih true
    · split
      · rfl
      · rename_i hfit
        have hnil : segment.bytes = [] := length_eq_zero_iff.mp (by omega)
        rw [hnil, append_nil]
        exact ih true

/-- **The field** of a word is the front of its text, and all of it where that fits. -/
theorem expandSegments_text (segments : List Segment) (hsize : current.length ≤ fieldSize)
    (produced : Bool) :
    (expandSegments environment segments (current, produced)).1 <+:
        current ++ segments.flatMap (segmentText environment) ∧
      ((current ++ segments.flatMap (segmentText environment)).length ≤ fieldSize →
        (expandSegments environment segments (current, produced)).1 =
          current ++ segments.flatMap (segmentText environment)) := by
  induction segments generalizing current produced with
  | nil =>
    rw [expandSegments, flatMap_nil, append_nil]
    exact ⟨prefix_refl _, fun _ => rfl⟩
  | cons segment segments ih =>
    rw [expandSegments, flatMap_cons, ← append_assoc, segmentText]
    split
    · by_cases hfit : (current ++ expandBytes environment 0 segment.bytes).length ≤ fieldSize
      · rw [expandSegment, take_of_length_le hfit]
        exact ih hfit true
      · have hfull : (expandSegment environment segment current).length = fieldSize := by
          rw [expandSegment, length_take]
          omega
        rw [expandSegments_full segments hfull]
        refine ⟨(List.take_prefix _ _).trans (prefix_append _ _), fun hall => ?_⟩
        rw [length_append] at hall
        omega
    · split
      · rename_i hlong
        refine ⟨(prefix_append _ _).trans (prefix_append _ _), fun hall => ?_⟩
        rw [length_append, length_append] at hall
        omega
      · rename_i hfit
        exact ih (by rw [length_append]; omega) true

end Field

/-! ### References -/

section Marks

variable {environment : Environment} {marks rest : List Mark} {m : Mark} {parts : List Part}

theorem byte_ne_of_isQuoted (h : m.byte ≠ dollar) : ∃ byte, m = .literal byte ∧ byte ≠ dollar := by
  cases m with
  | literal byte => exact ⟨byte, rfl, h⟩
  | active => exact absurd rfl h

variable {width : ℕ}

/-- A `$` that is followed by no name. -/
theorem meaningLoop_bare (hbyte : m.byte = dollar)
    (href : parseReference (bytesOf rest) = ([], width)) :
    meaningLoop environment 0 (m :: rest) = dollar :: meaningLoop environment 0 rest := by
  cases m with
  | literal byte =>
    rw [meaningLoop]
    exact congrArg (· :: _) hbyte
  | active =>
    have hmarked : ∃ width', markedReference rest = ([], width') := by
      rw [markedReference, href]
      by_cases h : (rest.take width).any Mark.isQuoted = true
      · exact ⟨0, if_pos h⟩
      · exact ⟨width, if_neg h⟩
    obtain ⟨width', hmarked⟩ := hmarked
    rw [meaningLoop, hmarked]

variable {name : List UInt8}

/-- A reference that has no quoted `$` in it. -/
theorem meaningLoop_reference (hname : name ≠ [])
    (href : parseReference (bytesOf rest) = (name, width))
    (h : (rest.take width).any Mark.isQuoted = false) :
    meaningLoop environment 0 (.active :: rest) =
      (environment.get name).getD [] ++ meaningLoop environment width rest := by
  have hmarked : markedReference rest = (name, width) := by
    rw [markedReference, href]
    exact if_neg (by rw [h]; exact false_ne_true)
  obtain ⟨b, name, rfl⟩ := exists_cons_of_ne_nil hname
  rw [meaningLoop, hmarked]

/-- A quoted `$` that would be part of a reference. -/
theorem meaningLoop_quoted (hbyte : m.byte = dollar)
    (href : parseReference (bytesOf rest) = (name, width))
    (h : (m :: rest.take width).any Mark.isQuoted = true) :
    meaningLoop environment 0 (m :: rest) = dollar :: meaningLoop environment 0 rest := by
  cases m with
  | literal byte =>
    rw [meaningLoop]
    exact congrArg (· :: _) hbyte
  | active =>
    have hmarked : markedReference rest = ([], 0) := by
      rw [markedReference, href]
      exact if_pos h
    rw [meaningLoop, hmarked]

theorem expandBytes_bare (hbyte : m.byte = dollar)
    (href : parseReference (bytesOf rest) = ([], width)) :
    expandBytes environment 0 (bytesOf (m :: rest)) =
      dollar :: expandBytes environment 0 (bytesOf rest) := by
  rw [bytesOf, map_cons, hbyte, expandBytes, if_neg (not_not.mpr rfl)]
  rw [bytesOf] at href
  rw [href]
  rfl

theorem expandBytes_reference (hbyte : m.byte = dollar) (hname : name ≠ [])
    (href : parseReference (bytesOf rest) = (name, width)) :
    expandBytes environment 0 (bytesOf (m :: rest)) =
      (environment.get name).getD [] ++ expandBytes environment width (bytesOf rest) := by
  rw [bytesOf, map_cons, hbyte, expandBytes, if_neg (not_not.mpr rfl)]
  rw [bytesOf] at href
  obtain ⟨b, name, rfl⟩ := exists_cons_of_ne_nil hname
  rw [href]
  rfl

/-- A `$` that is not quoted is active. -/
theorem eq_active (hbyte : m.byte = dollar) (h : m.isQuoted = false) : m = .active := by
  cases m with
  | active => rfl
  | literal byte =>
    rw [show byte = dollar from hbyte, Mark.isQuoted, beq_self_eq_true] at h
    cases h

/-- **Without quoted dollars in references**, bytes are expanded to what they mean. -/
theorem expandBytes_apart {skip : ℕ} (h : apartLoop skip marks = true) :
    expandBytes environment skip (bytesOf marks) = meaningLoop environment skip marks := by
  fun_induction apartLoop skip marks with
  | case1 => rfl
  | case2 skip m rest ih => exact ih h
  | case3 m rest hbyte ih =>
    obtain ⟨byte, rfl, hne⟩ := byte_ne_of_isQuoted hbyte
    rw [bytesOf, map_cons, expandBytes, if_pos hbyte, meaningLoop]
    exact congrArg (byte :: ·) (ih h)
  | case4 m rest hbyte width href ih =>
    rw [expandBytes_bare (not_not.mp hbyte) href, meaningLoop_bare (not_not.mp hbyte) href, ih h]
  | case5 m rest hbyte name width hne href ih =>
    rw [and_eq_true, not_eq_true', any_cons, or_eq_false_iff] at h
    obtain ⟨⟨hfirst, hquoted⟩, hapart⟩ := h
    obtain rfl := eq_active (not_not.mp hbyte) hfirst
    rw [expandBytes_reference rfl hne href, meaningLoop_reference hne href hquoted, ih hapart]

/-- **A quoted `$` in a reference** is lost where the reference has a value. -/
theorem expandBytes_not_apart {skip : ℕ} (h : apartLoop skip marks = false) :
    ∃ name, ∀ environment : Environment, environment.get name = some [0] → ∀ s t,
      expandBytes environment skip (bytesOf marks) ++ s ≠
        meaningLoop environment skip marks ++ t := by
  fun_induction apartLoop skip marks with
  | case1 => cases h
  | case2 skip m rest ih => exact ih h
  | case3 m rest hbyte ih =>
    obtain ⟨byte, rfl, hne⟩ := byte_ne_of_isQuoted hbyte
    obtain ⟨name, hname⟩ := ih h
    refine ⟨name, fun environment hget s t heq => hname environment hget s t ?_⟩
    rw [bytesOf, map_cons, expandBytes, if_pos hbyte, meaningLoop] at heq
    exact (List.cons.inj heq).2
  | case4 m rest hbyte width href ih =>
    obtain ⟨name, hname⟩ := ih h
    refine ⟨name, fun environment hget s t heq => hname environment hget s t ?_⟩
    rw [expandBytes_bare (not_not.mp hbyte) href, meaningLoop_bare (not_not.mp hbyte) href] at heq
    exact (List.cons.inj heq).2
  | case5 m rest hbyte name width hne href ih =>
    cases hquoted : (m :: rest.take width).any Mark.isQuoted with
    | true =>
      -- The reference begins with another byte here than the `$` that it should have been.
      refine ⟨name, fun environment hget s t heq => ?_⟩
      rw [expandBytes_reference (not_not.mp hbyte) hne href, hget,
        meaningLoop_quoted (not_not.mp hbyte) href hquoted] at heq
      exact absurd (List.cons.inj heq).1 (by decide)
    | false =>
      rw [hquoted, Bool.not_false, Bool.true_and] at h
      rw [any_cons, Bool.or_eq_false_iff] at hquoted
      obtain rfl := eq_active (not_not.mp hbyte) hquoted.1
      obtain ⟨other, hother⟩ := ih h
      refine ⟨other, fun environment hget s t heq => hother environment hget s t ?_⟩
      rw [expandBytes_reference rfl hne href, meaningLoop_reference hne href hquoted.2,
        append_assoc, append_assoc] at heq
      exact append_cancel_left heq

/-! ### Words -/

theorem meaningLoop_literal (h : marks.any Mark.isActive = false) :
    meaningLoop environment 0 marks = bytesOf marks := by
  induction marks with
  | nil => rfl
  | cons m marks ih =>
    rw [any_cons, or_eq_false_iff] at h
    cases m with
    | active => cases h.1
    | literal byte => exact congrArg (byte :: ·) (ih h.2)

theorem segmentText_apart {p : Part} (h : p.Apart) :
    segmentText environment p.segment = meaningLoop environment 0 p.marks := by
  rw [segmentText, Part.segment]
  cases hactive : p.marks.any Mark.isActive with
  | true => exact expandBytes_apart (h hactive)
  | false => exact (meaningLoop_literal hactive).symm

theorem segmentText_not_apart {p : Part} (h : ¬ p.Apart) :
    ∃ name, ∀ environment : Environment, environment.get name = some [0] → ∀ s t,
      segmentText environment p.segment ++ s ≠ meaningLoop environment 0 p.marks ++ t := by
  rw [Part.Apart, Classical.not_imp, not_eq_true] at h
  obtain ⟨hactive, hloop⟩ := h
  obtain ⟨name, hname⟩ := expandBytes_not_apart hloop
  refine ⟨name, fun environment hget s t => ?_⟩
  rw [segmentText, Part.segment, hactive]
  exact hname environment hget s t

theorem wordText_apart (h : ∀ p ∈ parts, p.Apart) :
    wordText environment (wordOf parts) = meaning environment parts := by
  rw [wordText, wordOf, flatMap_map, meaning]
  exact flatMap_congr fun p hp => segmentText_apart (h p hp)

theorem wordText_not_apart (h : ¬ ∀ p ∈ parts, p.Apart) :
    ∃ name, ∀ environment : Environment, environment.get name = some [0] → ∀ s t,
      wordText environment (wordOf parts) ++ s ≠ meaning environment parts ++ t := by
  induction parts with
  | nil => exact absurd (fun p hp => absurd hp not_mem_nil) h
  | cons p parts ih =>
    have htext : ∀ environment s, wordText environment (wordOf (p :: parts)) ++ s =
        segmentText environment p.segment ++ (wordText environment (wordOf parts) ++ s) :=
      fun environment s => append_assoc _ _ _
    have hmeaning : ∀ environment t, meaning environment (p :: parts) ++ t =
        meaningLoop environment 0 p.marks ++ (meaning environment parts ++ t) :=
      fun environment t => by rw [meaning, flatMap_cons, append_assoc, meaning]
    by_cases hp : p.Apart
    · obtain ⟨name, hname⟩ := ih fun hparts => h (forall_mem_cons.mpr ⟨hp, hparts⟩)
      refine ⟨name, fun environment hget s t heq => hname environment hget s t ?_⟩
      rw [htext, hmeaning, segmentText_apart hp] at heq
      exact append_cancel_left heq
    · obtain ⟨name, hname⟩ := segmentText_not_apart hp
      refine ⟨name, fun environment hget s t heq => ?_⟩
      rw [htext, hmeaning] at heq
      exact hname environment hget _ _ heq

/-- A word is expanded to what it means, as far as its field goes. -/
structure Means (environment : Environment) (word : Word) (parts : List Part) : Prop where
  text : wordText environment word = meaning environment parts
  field : (expandSegments environment word.segments ([], false)).1 <+: meaning environment parts
  whole : (meaning environment parts).length ≤ fieldSize →
    (expandSegments environment word.segments ([], false)).1 = meaning environment parts

theorem means_iff {word : Word} :
    Means environment word parts ↔ wordText environment word = meaning environment parts := by
  refine ⟨Means.text, fun h => ?_⟩
  obtain ⟨hfield, hwhole⟩ :=
    @expandSegments_text environment [] word.segments (Nat.zero_le _) false
  rw [nil_append] at hfield hwhole
  exact ⟨h, h ▸ hfield, h ▸ hwhole⟩

/-- **When a word is expanded to what it means.** -/
theorem means_wordOf_iff :
    (∀ environment, Means environment (wordOf parts) parts) ↔ ∀ p ∈ parts, p.Apart := by
  constructor
  · intro h
    by_contra hparts
    obtain ⟨name, hname⟩ := wordText_not_apart hparts
    have hget : Environment.get ⟨[⟨name, [0], false⟩]⟩ name = some [0] := by
      simp [Environment.get]
    exact hname _ hget [] [] (congrArg (· ++ []) (h _).text)
  · exact fun h environment => means_iff.mpr (wordText_apart h)

end Marks

/-- **Quoted dollars are literal.** In every environment each word of a line is expanded to what it
means, if and only if no reference that is found in a part with an active `$` has a quoted `$` in
it. -/
theorem dollars_iff {line : List UInt8} {tokens : List Token} (h : tokenize line = .ok tokens) :
    (∀ environment, List.Forall₂ (Means environment) (wordsOf tokens) (lineParts maxTokens line)) ↔
      ∀ parts ∈ lineParts maxTokens line, ∀ p ∈ parts, p.Apart := by
  have hwords : ∀ environment,
      List.Forall₂ (Means environment) (wordsOf tokens) (lineParts maxTokens line) ↔
        ∀ parts ∈ lineParts maxTokens line, Means environment (wordOf parts) parts := by
    intro environment
    rw [tokenize_parts h, forall₂_map_left_iff, forall₂_same]
  simp only [hwords]
  constructor
  · intro hmeans parts hparts
    exact means_wordOf_iff.mp fun environment => hmeans environment parts hparts
  · intro hparts environment parts hmem
    exact means_wordOf_iff.mpr (hparts parts hmem) environment

/-- `'$A'$B` -/
theorem dollars_iff_apart :
    (∀ environment, List.Forall₂ (Means environment)
      [⟨[⟨[36, 65], .singleQuoted, false⟩, ⟨[36, 66], .unquoted, true⟩]⟩]
      (lineParts maxTokens [39, 36, 65, 39, 36, 66])) ↔
      ∀ parts ∈ lineParts maxTokens [39, 36, 65, 39, 36, 66], ∀ p ∈ parts, p.Apart :=
  @dollars_iff [39, 36, 65, 39, 36, 66]
    [.word ⟨[⟨[36, 65], .singleQuoted, false⟩, ⟨[36, 66], .unquoted, true⟩]⟩] (by decide +kernel)

/-- `"\$HOME $HOME"` is `/home /home`. -/
theorem dollar_expanded : ¬ ∀ line tokens environment, tokenize line = .ok tokens →
    List.Forall₂ (Means environment) (wordsOf tokens) (lineParts maxTokens line) := by
  intro h
  have hline := h [34, 92, 36, 72, 79, 77, 69, 32, 36, 72, 79, 77, 69, 34]
    [.word ⟨[⟨[36, 72, 79, 77, 69, 32, 36, 72, 79, 77, 69], .doubleQuoted, true⟩]⟩] .new
    (by decide +kernel)
  have htext := congrArg List.head? (forall₂_cons.mp hline).1.text
  revert htext
  decide +kernel

end ImagineOS.Shell
