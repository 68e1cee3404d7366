import ImagineOS.Shell.Dollars
import ImagineOS.Shell.Quoting

/-!
# Shell: the fields of a word

White space in the value of an unquoted variable separates fields, and no other white space does.
The expansion keeps one text for the whole word, and cuts it at all its white space as soon as one
part of the word is not quoted.
-/

namespace ImagineOS.Shell

open List

/-- What the text of a word is made of. -/
inductive Item
  /-- A byte of a field. -/
  | char (byte : UInt8)
  /-- White space in the value of an unquoted variable. -/
  | blank (byte : UInt8)
  /-- Quotes; there is a field, even if it is empty. -/
  | quotes
  deriving DecidableEq

/-- The text of an item. -/
def Item.bytes : Item → List UInt8
  | .char byte | .blank byte => [byte]
  | .quotes => []

/-- An item that separates fields. -/
def Item.isBlank : Item → Bool
  | .blank _ => true
  | _ => false

/-- A byte of the value of an unquoted variable. -/
def valueItem (byte : UInt8) : Item := if isWhitespace byte then .blank byte else .char byte

/-- The items of bare bytes, of which so many are to be passed over. -/
def bareItems (environment : Environment) : ℕ → List UInt8 → List Item
  | _, [] => []
  | skip + 1, _ :: rest => bareItems environment skip rest
  | 0, byte :: rest =>
    if byte ≠ dollar then .char byte :: bareItems environment 0 rest
    else match parseReference rest with
    | ([], _) => .char dollar :: bareItems environment 0 rest
    | (name, width) =>
      ((environment.get name).getD []).map valueItem ++ bareItems environment width rest

/-- The items of a part. -/
def partItems (environment : Environment) : Part → List Item
  | .single bytes => .quotes :: bytes.map .char
  | .double marks =>
    .quotes :: (segmentText environment (Part.double marks).segment).map .char
  | .escaped byte => [.char byte]
  | .bare bytes => bareItems environment 0 bytes

/-- The items of a word. -/
def wordItems (environment : Environment) (parts : List Part) : List Item :=
  parts.flatMap (partItems environment)

/-- The text of items. -/
def textOf (list : List Item) : List UInt8 := list.flatMap Item.bytes

/-- **The fields that a word should have**: where there is an item, there is a field. -/
def fields (environment : Environment) (parts : List Part) : List (List UInt8) :=
  (((wordItems environment parts).splitOnP Item.isBlank).filter (· ≠ [])).map textOf

/-- A part between quotes. -/
def Part.isQuoted (p : Part) : Bool := !decide (p.kind = .unquoted)

/-- There is no white space but from unquoted variables, and no field without a byte. -/
structure Clean (list : List Item) : Prop where
  char : ∀ byte, Item.char byte ∈ list → isWhitespace byte = false
  piece : ∀ piece ∈ list.splitOnP Item.isBlank, piece ≠ [] → ∃ byte, Item.char byte ∈ piece

section Fields

variable {environment : Environment} {parts : List Part} {list piece : List Item}

/-! ### Texts -/

theorem textOf_char (bytes : List UInt8) : textOf (bytes.map .char) = bytes := by
  rw [textOf, flatMap_map]
  exact flatMap_singleton' bytes

theorem textOf_value (bytes : List UInt8) : textOf (bytes.map valueItem) = bytes := by
  have hvalue : ∀ b, (valueItem b).bytes = [b] := by
    intro b
    rw [valueItem]
    split <;> rfl
  rw [textOf, flatMap_map, flatMap_congr fun b _ => hvalue b]
  exact flatMap_singleton' bytes

theorem textOf_append (l m : List Item) : textOf (l ++ m) = textOf l ++ textOf m :=
  flatMap_append

theorem textOf_bareItems (skip : ℕ) (bytes : List UInt8) :
    textOf (bareItems environment skip bytes) = expandBytes environment skip bytes := by
  fun_induction bareItems environment skip bytes with
  | case1 => rfl
  | case2 skip b rest ih => exact ih
  | case3 b rest hb ih =>
    rw [expandBytes, if_pos hb, ← ih]
    rfl
  | case4 b rest hb width href ih =>
    rw [expandBytes, if_neg hb, href, ← ih]
    rfl
  | case5 b rest hb name width hne href ih =>
    obtain ⟨c, name, rfl⟩ := exists_cons_of_ne_nil hne
    rw [expandBytes, if_neg hb, href, textOf_append, textOf_value, ih]

/-- **The items** of a part make its text. -/
theorem textOf_partItems (p : Part) :
    textOf (partItems environment p) = segmentText environment p.segment := by
  cases p with
  | single bytes =>
    rw [segmentText, Part.segment, Part.marks, any_literal, bytesOf_literal]
    exact textOf_char bytes
  | double marks => exact textOf_char _
  | escaped byte => rfl
  | bare bytes =>
    rw [segmentText, Part.segment, Part.marks, any_bare, bytesOf_bare, partItems, textOf_bareItems]
    split
    · rfl
    · rename_i hdollar
      exact expandBytes_plain (hasReference_of_not_mem fun hmem =>
        hdollar (contains_iff_mem.mpr hmem))

theorem textOf_items (parts : List Part) :
    textOf (wordItems environment parts) = wordText environment (wordOf parts) := by
  rw [wordItems, textOf, flatMap_assoc, wordText, wordOf, flatMap_map]
  exact flatMap_congr fun p _ => textOf_partItems p

variable {byte : UInt8}

theorem isWhitespace_of_blank {skip : ℕ} {bytes : List UInt8}
    (h : Item.blank byte ∈ bareItems environment skip bytes) : isWhitespace byte = true := by
  fun_induction bareItems environment skip bytes with
  | case1 => cases h
  | case2 skip b rest ih => exact ih h
  | case3 b rest hb ih => exact ih ((mem_cons.mp h).resolve_left nofun)
  | case4 b rest hb width href ih => exact ih ((mem_cons.mp h).resolve_left nofun)
  | case5 b rest hb name width hne href ih =>
    rcases mem_append.mp h with h | h
    · obtain ⟨c, -, hc⟩ := mem_map.mp h
      rw [valueItem] at hc
      split at hc
      · rename_i hspace
        cases hc
        exact hspace
      · cases hc
    · exact ih h

theorem blank_items (h : Item.blank byte ∈ wordItems environment parts) :
    isWhitespace byte = true := by
  obtain ⟨p, -, hp⟩ := mem_flatMap.mp h
  cases p with
  | single bytes => simp [partItems] at hp
  | double marks => simp [partItems] at hp
  | escaped b => simp [partItems] at hp
  | bare bytes => exact isWhitespace_of_blank hp

/-! ### Cutting -/

theorem mem_textOf (h : byte ∈ textOf list) :
    Item.char byte ∈ list ∨ Item.blank byte ∈ list := by
  obtain ⟨item, hitem, hbyte⟩ := mem_flatMap.mp h
  cases item with
  | char b => exact .inl (mem_singleton.mp hbyte ▸ hitem)
  | blank b => exact .inr (mem_singleton.mp hbyte ▸ hitem)
  | quotes => cases hbyte

theorem textOf_ne_nil (h : Item.char byte ∈ piece) : textOf piece ≠ [] :=
  ne_nil_of_mem (mem_flatMap.mpr ⟨_, h, mem_singleton_self byte⟩)

/-- Where all white space separates fields, the text is cut where the items are. -/
theorem splitOnP_textOf (hchar : ∀ byte, Item.char byte ∈ list → isWhitespace byte = false)
    (hblank : ∀ byte, Item.blank byte ∈ list → isWhitespace byte = true) :
    (textOf list).splitOnP isWhitespace = (list.splitOnP Item.isBlank).map textOf := by
  have hfield : ∀ v : List Item, (∀ item ∈ v, item.isBlank = false) →
      (∀ byte, Item.char byte ∈ v → isWhitespace byte = false) →
      ∀ byte ∈ textOf v, isWhitespace byte = false := by
    intro v hv hchar byte hbyte
    rcases mem_textOf hbyte with h | h
    · exact hchar byte h
    · cases hv _ h
  induction list using separator_induction Item.isBlank with
  | hnone v hv =>
    rw [splitOnP_eq_singleton hv, splitOnP_eq_singleton (hfield v hv hchar)]
    rfl
  | hsome v item rest hv hitem ih =>
    cases item with
    | char b => cases hitem
    | quotes => cases hitem
    | blank b =>
      have hspace : isWhitespace b = true :=
        hblank b (mem_append_right v mem_cons_self)
      have hfirst := hfield v hv fun byte h => hchar byte (mem_append_left _ h)
      have hrest := ih
        (fun byte h => hchar byte (mem_append_right v (mem_cons_of_mem _ h)))
        fun byte h => hblank byte (mem_append_right v (mem_cons_of_mem _ h))
      have htext : textOf (v ++ .blank b :: rest) = textOf v ++ b :: textOf rest :=
        textOf_append _ _
      rw [htext, splitOnP_append_cons_of_forall_mem hfirst b hspace, hrest,
        splitOnP_append_cons_of_forall_mem hv _ hitem, map_cons]

theorem foldl_pushField_eq {input : List (List UInt8)} (hlength : input.length ≤ maxFields)
    (hsize : ∀ field ∈ input, field.length ≤ fieldSize) : input.foldl pushField [] = input := by
  have hall : ∀ (input done : List (List UInt8)), done.length + input.length ≤ maxFields →
      (∀ field ∈ input, field.length ≤ fieldSize) → input.foldl pushField done = done ++ input := by
    intro input
    induction input with
    | nil => exact fun done _ _ => (append_nil done).symm
    | cons field input ih =>
      intro done hroom hsize
      rw [length_cons] at hroom
      have hfield := hsize field mem_cons_self
      rw [foldl_cons, pushField, if_neg (by omega), ih, append_assoc]
      · rfl
      · rw [length_append, length_singleton]
        omega
      · exact fun f hf => hsize f (mem_cons_of_mem field hf)
  exact hall input [] (by rw [length_nil]; omega) hsize

theorem length_le_of_mem_splitOnP (bytes : List UInt8) :
    ∀ v ∈ bytes.splitOnP isWhitespace, v.length ≤ bytes.length := by
  induction bytes using separator_induction isWhitespace with
  | hnone v hv =>
    rw [splitOnP_eq_singleton hv]
    exact forall_mem_singleton.mpr (Nat.le_refl _)
  | hsome v b rest hv hb ih =>
    rw [forall_splitOnP_append hv hb, length_append, length_cons]
    exact ⟨by omega, fun w hw => (ih w hw).trans (by omega)⟩

/-! ### Words -/

theorem expandSegments_produced {current : List UInt8} (segments : List Segment) (produced : Bool)
    (h : (current ++ segments.flatMap (segmentText environment)).length ≤ fieldSize) :
    (expandSegments environment segments (current, produced)).2 =
      (produced || !segments.isEmpty) := by
  induction segments generalizing current produced with
  | nil => exact (Bool.or_false produced).symm
  | cons segment segments ih =>
    have hproduced : (produced || !(segment :: segments).isEmpty) =
        (true || !segments.isEmpty) := by
      rw [isEmpty_cons, Bool.not_false, Bool.or_true, Bool.true_or]
    rw [flatMap_cons, ← append_assoc, segmentText] at h
    rw [expandSegments, hproduced]
    split at h
    · rename_i hcopies
      have hfit : (current ++ expandBytes environment 0 segment.bytes).length ≤ fieldSize := by
        rw [length_append] at h
        omega
      rw [if_pos hcopies, expandSegment, take_of_length_le hfit]
      exact ih true h
    · rename_i hcopies
      have hfit : ¬ current.length + segment.bytes.length > fieldSize := by
        rw [length_append, length_append] at h
        omega
      rw [if_neg hcopies, if_neg hfit]
      exact ih true h

/-- **The fields of a word** whose text fits. -/
theorem expand_fits (h : (wordText environment (wordOf parts)).length ≤ fieldSize)
    (hne : parts ≠ []) : expand environment (wordOf parts) =
      if parts.all Part.isQuoted then [textOf (wordItems environment parts)]
      else splitFields (textOf (wordItems environment parts)) := by
  obtain ⟨-, hcurrent⟩ :=
    @expandSegments_text environment [] (wordOf parts).segments (Nat.zero_le _) false
  have hproduced := @expandSegments_produced environment [] (wordOf parts).segments false h
  have hsegments : (wordOf parts).segments.isEmpty = false := by
    rw [wordOf, isEmpty_map]
    exact isEmpty_eq_false_iff.mpr hne
  have hany : (wordOf parts).segments.any (·.kind = .unquoted) = !parts.all Part.isQuoted := by
    rw [wordOf, any_map, not_all_eq_any_not]
    refine congrArg parts.any (funext fun p => ?_)
    rw [Part.isQuoted, Bool.not_not]
    rfl
  have hpair : expandSegments environment (wordOf parts).segments ([], false) =
      (textOf (wordItems environment parts), true) := by
    refine Prod.ext ?_ ?_
    · rw [textOf_items]
      exact hcurrent h
    · rw [hproduced, hsegments]
      rfl
  have hsize : (textOf (wordItems environment parts)).length ≤ fieldSize := by rwa [textOf_items]
  rw [expand, hpair]
  dsimp only
  rw [if_neg (by simp), hany]
  cases parts.all Part.isQuoted with
  | true =>
    rw [if_neg (by simp), if_pos rfl, pushField, if_neg (by simp [maxFields]; omega)]
    rfl
  | false => rw [if_pos (by simp), if_neg (by simp)]

theorem fields_quoted (h : parts.all Part.isQuoted = true) (hne : parts ≠ []) :
    fields environment parts = [textOf (wordItems environment parts)] := by
  have hitems : ∀ item ∈ wordItems environment parts, item.isBlank = false := by
    intro item hitem
    obtain ⟨p, hp, hitem⟩ := mem_flatMap.mp hitem
    have hquoted := all_eq_true.mp h p hp
    cases p with
    | single bytes =>
      rcases mem_cons.mp hitem with rfl | hitem
      · rfl
      · obtain ⟨b, -, rfl⟩ := mem_map.mp hitem
        rfl
    | double marks =>
      rcases mem_cons.mp hitem with rfl | hitem
      · rfl
      · obtain ⟨b, -, rfl⟩ := mem_map.mp hitem
        rfl
    | escaped b => cases hquoted
    | bare bytes => cases hquoted
  have hsome : wordItems environment parts ≠ [] := by
    obtain ⟨p, rest, rfl⟩ := exists_cons_of_ne_nil hne
    have hquoted := all_eq_true.mp h p mem_cons_self
    cases p with
    | single bytes => exact cons_ne_nil _ _
    | double marks => exact cons_ne_nil _ _
    | escaped b => cases hquoted
    | bare bytes => cases hquoted
  rw [fields, splitOnP_eq_singleton hitems, filter_cons_of_pos (by simpa using hsome)]
  rfl

/-- The word is within the limits of the shell: one field for its text, and one for each of the
fields that it should have. -/
structure WithinFields (environment : Environment) (parts : List Part) : Prop where
  text : (wordText environment (wordOf parts)).length ≤ fieldSize
  count : (fields environment parts).length ≤ maxFields

theorem fields_clean (h : Clean (wordItems environment parts)) :
    fields environment parts =
      ((textOf (wordItems environment parts)).splitOnP isWhitespace).filter (· ≠ []) := by
  rw [splitOnP_textOf h.char fun byte hbyte => blank_items hbyte, filter_map, fields]
  refine congrArg (List.map textOf) (filter_congr fun piece hpiece => ?_)
  refine decide_eq_decide.mpr ⟨fun hne => ?_, fun htext hnil => htext (by rw [hnil]; rfl)⟩
  obtain ⟨byte, hbyte⟩ := h.piece piece hpiece hne
  exact textOf_ne_nil hbyte

theorem clean_of_fields (h : ∀ field ∈ fields environment parts,
    field ≠ [] ∧ ∀ byte ∈ field, isWhitespace byte = false) :
    Clean (wordItems environment parts) := by
  have hpiece : ∀ piece ∈ (wordItems environment parts).splitOnP Item.isBlank, piece ≠ [] →
      textOf piece ∈ fields environment parts := fun piece hmem hne =>
    mem_map_of_mem (mem_filter.mpr ⟨hmem, decide_eq_true hne⟩)
  constructor
  · intro byte hbyte
    obtain ⟨piece, hmem, hin⟩ := exists_mem_splitOnP hbyte (rfl : (Item.char byte).isBlank = false)
    have hfield := hpiece piece hmem (ne_nil_of_mem hin)
    exact (h _ hfield).2 byte (mem_flatMap.mpr ⟨_, hin, mem_singleton_self byte⟩)
  · intro piece hmem hne
    obtain ⟨byte, hbyte⟩ := exists_mem_of_ne_nil _ (h _ (hpiece piece hmem hne)).1
    refine ⟨byte, (mem_textOf hbyte).resolve_right fun hblank => ?_⟩
    exact absurd (not_of_mem_splitOnP _ piece hmem _ hblank) (by simp [Item.isBlank])

theorem ne_nil_of_mem_splitFields {field bytes : List UInt8} (h : field ∈ splitFields bytes) :
    field ≠ [] := by
  have hmem := (foldl_pushField _ []).subset h
  rw [nil_append] at hmem
  exact of_decide_eq_true (mem_filter.mp hmem).2

/-- **When a word has the fields that it should have.** -/
theorem expand_eq_fields_iff (hlimits : WithinFields environment parts) (hne : parts ≠ []) :
    expand environment (wordOf parts) = fields environment parts ↔
      parts.all Part.isQuoted = true ∨ Clean (wordItems environment parts) := by
  rw [expand_fits hlimits.text hne]
  cases hquoted : parts.all Part.isQuoted with
  | true =>
    rw [if_pos rfl, fields_quoted hquoted hne]
    exact iff_of_true rfl (.inl rfl)
  | false =>
    rw [if_neg Bool.false_ne_true]
    constructor
    · intro h
      refine .inr (clean_of_fields fun field hfield => ?_)
      rw [← h] at hfield
      exact ⟨ne_nil_of_mem_splitFields hfield, not_isWhitespace_of_mem hfield⟩
    · intro h
      have hfields := fields_clean (h.resolve_left Bool.false_ne_true)
      have hcount := hlimits.count
      have hsize : (textOf (wordItems environment parts)).length ≤ fieldSize := by
        rw [textOf_items]
        exact hlimits.text
      rw [hfields] at hcount ⊢
      exact foldl_pushField_eq hcount fun field hfield =>
        (length_le_of_mem_splitOnP _ field (mem_of_mem_filter hfield)).trans hsize

end Fields

theorem Tokens.segments_ne_nil {line : List UInt8} {tokens : List Token} (h : Tokens line tokens) :
    ∀ word ∈ wordsOf tokens, word.segments ≠ [] := by
  induction h with
  | nil => exact fun word hword => absurd hword not_mem_nil
  | operator _ _ ih => exact ih
  | word _ _ _ read _ ih =>
    obtain ⟨_, _, hne, -⟩ := readWord_ok read
    exact forall_mem_cons.mpr ⟨hne, ih⟩

theorem ne_nil_of_mem_lineParts {line : List UInt8} {tokens : List Token}
    (h : tokenize line = .ok tokens) {parts : List Part}
    (hparts : parts ∈ lineParts maxTokens line) : parts ≠ [] := by
  rintro rfl
  have hword : wordOf [] ∈ wordsOf tokens := by
    rw [tokenize_parts h]
    exact mem_map_of_mem hparts
  exact (tokenizeLoop_tokens h).segments_ne_nil _ hword rfl

/-- **Only unquoted variables are split.** Within the limits of the shell, the words of a line are
expanded to the fields that they should have, if and only if each word is quoted as a whole, or has
white space from unquoted variables only and no field without a byte. -/
theorem fields_iff {line : List UInt8} {tokens : List Token} (h : tokenize line = .ok tokens)
    {environment : Environment}
    (hlimits : ∀ parts ∈ lineParts maxTokens line, WithinFields environment parts) :
    (wordsOf tokens).map (expand environment) =
        (lineParts maxTokens line).map (fields environment) ↔
      ∀ parts ∈ lineParts maxTokens line,
        parts.all Part.isQuoted = true ∨ Clean (wordItems environment parts) := by
  rw [tokenize_parts h, map_map, map_inj_left]
  exact forall₂_congr fun parts hparts =>
    expand_eq_fields_iff (hlimits parts hparts) (ne_nil_of_mem_lineParts h hparts)

/-- `a$X`, where `X` is a space and a letter. -/
theorem fields_iff_split :
    (wordsOf [.word ⟨[⟨[97, 36, 88], .unquoted, true⟩]⟩]).map
        (expand ⟨[⟨[88], [32, 99], false⟩]⟩) =
        (lineParts maxTokens [97, 36, 88]).map (fields ⟨[⟨[88], [32, 99], false⟩]⟩) ↔
      ∀ parts ∈ lineParts maxTokens [97, 36, 88],
        parts.all Part.isQuoted = true ∨ Clean (wordItems ⟨[⟨[88], [32, 99], false⟩]⟩ parts) := by
  refine fields_iff rfl fun parts hparts => ?_
  have hline : lineParts maxTokens [97, 36, 88] = [[.bare [97, 36, 88]]] := rfl
  rw [hline, mem_singleton] at hparts
  subst hparts
  exact ⟨by decide, by decide⟩

/-- `"a b"c` is cut in two. -/
theorem quoted_blank_splits : ¬ ∀ line tokens environment, tokenize line = .ok tokens →
    (∀ parts ∈ lineParts maxTokens line, WithinFields environment parts) →
    (wordsOf tokens).map (expand environment) =
      (lineParts maxTokens line).map (fields environment) := by
  intro h
  have hline : lineParts maxTokens [34, 97, 32, 98, 34, 99] =
      [[.double [.literal 97, .literal 32, .literal 98], .bare [99]]] := rfl
  have hfields := h [34, 97, 32, 98, 34, 99]
    [.word ⟨[⟨[97, 32, 98], .doubleQuoted, false⟩, ⟨[99], .unquoted, false⟩]⟩] .new
    rfl fun parts hparts => by
      rw [hline, mem_singleton] at hparts
      subst hparts
      exact ⟨by decide, by decide⟩
  rw [hline] at hfields
  revert hfields
  decide +kernel

end ImagineOS.Shell
