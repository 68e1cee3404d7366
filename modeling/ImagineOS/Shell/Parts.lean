import ImagineOS.Shell.Weights

/-!
# Shell: where the bytes of a word come from

A word of a line is written in parts: between quotes of either kind, behind a backslash, or bare.
The lexer keeps a segment for each part, and of each segment its bytes, its kind and whether it has
a `$` that may be expanded. What it does not keep is which `$` of the segment that is, and whether
an unquoted byte was bare or behind a backslash.
-/

namespace ImagineOS.Shell

open List

/-- A byte of a word that stands for itself, or a `$` that is not quoted. -/
inductive Mark
  | literal (byte : UInt8)
  | active
  deriving DecidableEq

/-- The byte of a mark. -/
def Mark.byte : Mark → UInt8
  | .literal byte => byte
  | .active => dollar

/-- A `$` that is not quoted. -/
def Mark.isActive : Mark → Bool
  | .literal _ => false
  | .active => true

/-- A byte that is not quoted. -/
def Mark.bare (byte : UInt8) : Mark := if byte == dollar then .active else .literal byte

@[simp] theorem Mark.byte_bare (byte : UInt8) : (Mark.bare byte).byte = byte := by
  rw [Mark.bare]
  split
  · rename_i h
    exact (eq_of_beq h).symm
  · rfl

@[simp] theorem Mark.isActive_bare (byte : UInt8) :
    (Mark.bare byte).isActive = (byte == dollar) := by
  rw [Mark.bare]
  split
  · rename_i h
    exact h.symm
  · rename_i h
    exact (Bool.eq_false_iff.mpr h).symm

/-- A part of a word: between quotes of either kind, behind a backslash, or bare. -/
inductive Part
  | single (bytes : List UInt8)
  | double (marks : List Mark)
  | escaped (byte : UInt8)
  | bare (bytes : List UInt8)
  deriving DecidableEq

/-- The bytes of marks. -/
def bytesOf (marks : List Mark) : List UInt8 := marks.map Mark.byte

namespace Part

/-- The marks of a part. -/
def marks : Part → List Mark
  | single bytes => bytes.map .literal
  | double marks => marks
  | escaped byte => [.literal byte]
  | bare bytes => bytes.map .bare

/-- What the lexer keeps of how a part is written. -/
def kind : Part → SegmentKind
  | single _ => .singleQuoted
  | double _ => .doubleQuoted
  | escaped _ | bare _ => .unquoted

/-- What the lexer keeps of a part. -/
def segment (p : Part) : Segment := ⟨bytesOf p.marks, p.kind, p.marks.any Mark.isActive⟩

end Part

/-- What the lexer keeps of a word. -/
def wordOf (parts : List Part) : Word := ⟨parts.map Part.segment⟩

/-! ### Reading -/

/-- The bytes between double quotes, up to the closing one, where a backslash quotes `"`, `\`, `$`
and a backquote. -/
def doubleMarks : List UInt8 → List Mark × List UInt8
  | [] => ([], [])
  | [byte] => if byte = doubleQuote then ([], []) else ([.bare byte], [])
  | byte :: next :: rest =>
    if byte = doubleQuote then ([], next :: rest)
    else if byte = backslash ∧
      (next = doubleQuote ∨ next = backslash ∨ next = dollar ∨ next = 96) then
      let (marks, after) := doubleMarks rest
      (.literal next :: marks, after)
    else
      let (marks, after) := doubleMarks (next :: rest)
      (.bare byte :: marks, after)

/-- The first part of a line, and what is behind it. -/
def readPart : List UInt8 → Part × List UInt8
  | [] => (.bare [], [])
  | byte :: rest =>
    if byte = singleQuote then
      (.single (rest.takeWhile (· != singleQuote)), (rest.dropWhile (· != singleQuote)).tail)
    else if byte = doubleQuote then
      let (marks, after) := doubleMarks rest
      (.double marks, after)
    else if byte = backslash then
      match rest with
      | [] => (.bare [], [])
      | escaped :: rest => (.escaped escaped, rest)
    else
      let (run, after) := unquotedRun (byte :: rest)
      (.bare run, after)

/-- The parts of the first word of a line, at most so many, and what is behind it. -/
def readParts (room : ℕ) (line : List UInt8) : List Part × List UInt8 :=
  if endsWord line then ([], line)
  else match room with
  | 0 => ([], line)
  | room + 1 =>
    let (part, rest) := readPart line
    let (parts, after) := readParts room rest
    (part :: parts, after)

/-- The parts of the words of a line, of at most so many tokens. -/
def lineParts : ℕ → List UInt8 → List (List Part)
  | 0, _ => []
  | room + 1, line =>
    match line.dropWhile isBlank with
    | [] => []
    | byte :: rest =>
      if byte = hash then []
      else match operatorAt (byte :: rest) with
      | some (_, width) => lineParts room ((byte :: rest).drop width)
      | none =>
        let (parts, after) := readParts maxSegments (byte :: rest)
        parts :: lineParts room after

/-- The words of tokens. -/
def wordsOf (tokens : List Token) : List Word :=
  tokens.filterMap fun
    | .word word => some word
    | .operator _ => none

section Parts

variable {line rest : List UInt8} {segment segment' : Segment} {room : ℕ} {tokens : List Token}

theorem bytesOf_literal (bytes : List UInt8) : bytesOf (bytes.map .literal) = bytes := by
  rw [bytesOf, map_map]
  exact map_id bytes

theorem bytesOf_bare (bytes : List UInt8) : bytesOf (bytes.map .bare) = bytes := by
  rw [bytesOf, map_map]
  exact (map_congr_left fun b _ => Mark.byte_bare b).trans (map_id bytes)

theorem any_literal (bytes : List UInt8) : (bytes.map Mark.literal).any Mark.isActive = false := by
  rw [any_map]
  exact any_eq_false.mpr fun b _ => Bool.false_ne_true

theorem any_bare (bytes : List UInt8) :
    (bytes.map Mark.bare).any Mark.isActive = bytes.contains dollar := by
  rw [any_map, ← any_beq']
  exact congrArg bytes.any (funext Mark.isActive_bare)

theorem pushByte_eq {byte : UInt8} (h : segment.pushByte byte = .ok segment') :
    segment' = { segment with bytes := segment.bytes ++ [byte] } := by
  rw [Segment.pushByte] at h
  split at h
  · cases h
  · exact (Except.ok.inj h).symm

/-- Between double quotes. -/
theorem readDoubleQuoted_marks (h : readDoubleQuoted line segment = .ok (segment', rest)) :
    segment' = ⟨segment.bytes ++ bytesOf (doubleMarks line).1, segment.kind,
      segment.copiesVariable || (doubleMarks line).1.any Mark.isActive⟩ ∧
      (doubleMarks line).2 = rest := by
  fun_induction readDoubleQuoted line segment with
  | case1 => cases h
  | case2 segment =>
    cases h
    rw [doubleMarks, if_pos rfl]
    exact ⟨by simp [bytesOf], rfl⟩
  | case3 =>
    obtain ⟨_, _, h⟩ := bind_eq_ok.mp h
    cases h
  | case4 segment next tail =>
    cases h
    rw [doubleMarks, if_pos rfl]
    exact ⟨by simp [bytesOf], rfl⟩
  | case5 byte next tail segment hquote hescape ih =>
    obtain ⟨pushed, hpush, h⟩ := bind_eq_ok.mp h
    obtain ⟨hsegment, hrest⟩ := ih pushed h
    rw [doubleMarks, if_neg hquote, if_pos hescape]
    refine ⟨?_, hrest⟩
    rw [hsegment, pushByte_eq hpush]
    simp [bytesOf, Mark.byte, Mark.isActive]
  | case6 byte next tail segment hquote hescape ih =>
    obtain ⟨pushed, hpush, h⟩ := bind_eq_ok.mp h
    obtain ⟨hsegment, hrest⟩ := ih pushed h
    rw [doubleMarks, if_neg hquote, if_neg hescape]
    refine ⟨?_, hrest⟩
    rw [hsegment, pushByte_eq hpush]
    simp [bytesOf, Bool.or_assoc]

/-- **A segment** is what the lexer keeps of a part. -/
theorem readSegment_part (h : readSegment line = .ok (segment, rest)) :
    segment = (readPart line).1.segment ∧ (readPart line).2 = rest := by
  cases line with
  | nil => cases h
  | cons byte tail =>
    rw [readSegment.eq_def] at h
    rw [readPart.eq_def]
    dsimp only at h ⊢
    split at h
    · rename_i hquote
      rw [if_pos hquote]
      cases hdrop : tail.dropWhile (· != singleQuote) with
      | nil => rw [hdrop] at h; cases h
      | cons c after =>
        rw [hdrop] at h
        obtain ⟨read, hread, h⟩ := bind_eq_ok.mp h
        cases h
        refine ⟨?_, rfl⟩
        rw [ofBytes_eq hread, Part.segment, Part.marks, bytesOf_literal, any_literal]
        rfl
    · rename_i hsingle
      rw [if_neg hsingle]
      split at h
      · rename_i hquote
        rw [if_pos hquote]
        obtain ⟨hsegment, hrest⟩ := readDoubleQuoted_marks h
        exact ⟨hsegment.trans (by rw [Bool.false_or, nil_append]; rfl), hrest⟩
      · rename_i hdouble
        rw [if_neg hdouble]
        split at h
        · rename_i hescape
          rw [if_pos hescape]
          cases tail with
          | nil => cases h
          | cons escaped tail =>
            obtain ⟨read, hread, h⟩ := bind_eq_ok.mp h
            cases h
            exact ⟨ofBytes_eq hread, rfl⟩
        · rename_i hescape
          rw [if_neg hescape]
          obtain ⟨read, hread, h⟩ := bind_eq_ok.mp h
          cases h
          refine ⟨?_, rfl⟩
          rw [ofBytes_eq hread, Part.segment, Part.marks, bytesOf_bare, any_bare]
          rfl

theorem readParts_end (room : ℕ) (h : endsWord line = true) : readParts room line = ([], line) := by
  rw [readParts.eq_def, if_pos h]

theorem readWord_end {word word' : Word} (hends : endsWord line = true)
    (h : readWord room word line = .ok (word', rest)) : word' = word ∧ line = rest := by
  rw [readWord.eq_def] at h
  dsimp only at h
  rw [if_pos hends] at h
  split at h
  · cases h
  · cases h
    exact ⟨rfl, rfl⟩

/-- **A word** is what the lexer keeps of its parts. -/
theorem readWord_parts {word word' : Word} (h : readWord room word line = .ok (word', rest)) :
    word'.segments = word.segments ++ (readParts room line).1.map Part.segment ∧
      (readParts room line).2 = rest := by
  induction room generalizing word line with
  | zero =>
    cases hends : endsWord line with
    | true =>
      obtain ⟨rfl, rfl⟩ := readWord_end hends h
      rw [readParts_end 0 hends]
      exact ⟨(append_nil _).symm, rfl⟩
    | false =>
      rw [readWord.eq_def] at h
      dsimp only at h
      rw [hends, if_neg Bool.false_ne_true] at h
      obtain ⟨_, _, h⟩ := bind_eq_ok.mp h
      cases h
  | succ room ih =>
    cases hends : endsWord line with
    | true =>
      obtain ⟨rfl, rfl⟩ := readWord_end hends h
      rw [readParts_end (room + 1) hends]
      exact ⟨(append_nil _).symm, rfl⟩
    | false =>
      rw [readWord.eq_def] at h
      dsimp only at h
      rw [hends, if_neg Bool.false_ne_true] at h
      obtain ⟨⟨segment, after⟩, hread, h⟩ := bind_eq_ok.mp h
      obtain ⟨rfl, rfl⟩ := readSegment_part hread
      obtain ⟨hsegments, rfl⟩ := ih h
      rw [readParts.eq_def, hends, if_neg Bool.false_ne_true]
      refine ⟨?_, rfl⟩
      rw [hsegments, append_assoc]
      rfl

/-- The words of tokens. -/
theorem tokenizeLoop_parts (h : tokenizeLoop room line = .ok tokens) :
    wordsOf tokens = (lineParts room line).map wordOf := by
  induction room generalizing line tokens with
  | zero =>
    rw [tokenizeLoop] at h
    rw [lineParts]
    split at h
    · cases h
      rfl
    · split at h
      · cases h
        rfl
      · cases h
  | succ room ih =>
    rw [tokenizeLoop] at h
    rw [lineParts]
    cases hstart : line.dropWhile isBlank with
    | nil =>
      rw [hstart] at h
      cases h
      rfl
    | cons byte tail =>
      rw [hstart] at h
      dsimp only at h ⊢
      split at h
      · rename_i hcomment
        cases h
        rw [if_pos hcomment]
        rfl
      · rename_i hcomment
        rw [if_neg hcomment]
        cases hop : operatorAt (byte :: tail) with
        | some r =>
          obtain ⟨operator, width⟩ := r
          rw [hop] at h
          obtain ⟨tokens', htokens, h⟩ := bind_eq_ok.mp h
          cases h
          show wordsOf tokens' = _
          exact ih htokens
        | none =>
          rw [hop] at h
          obtain ⟨⟨word, rest⟩, hread, h⟩ := bind_eq_ok.mp h
          obtain ⟨tokens', htokens, h⟩ := bind_eq_ok.mp h
          cases h
          obtain ⟨hsegments, rfl⟩ := readWord_parts hread
          have hword : word = wordOf (readParts maxSegments (byte :: tail)).1 :=
            congrArg Word.mk hsegments
          rw [hword]
          exact congrArg (wordOf (readParts maxSegments (byte :: tail)).1 :: ·) (ih htokens)

/-- **The lexer** keeps the parts of the words of a line, without the marks. -/
theorem tokenize_parts (h : tokenize line = .ok tokens) :
    wordsOf tokens = (lineParts maxTokens line).map wordOf := tokenizeLoop_parts h

end Parts

end ImagineOS.Shell
