import ImagineOS.SepBy
import Mathlib.Data.List.DropRight

/-!
# Global options

The program `globalconf` edits a text of lines `key = value`. It changes the first line that sets an
option, leaves out the others that do, and appends a line where there is none. What it makes of the
bytes is what is made of the lines (`lines_updateFrom`), so an option takes effect and no other one
is touched (`updateSetting_spec`).
-/

namespace ImagineOS.Globalconf

open List

/-! ### Lines -/

/-- The byte `\n`. -/
def newline : UInt8 := 10

/-- `is_ascii_whitespace` -/
def isWhitespace (byte : UInt8) : Bool := byte ∈ [32, 9, 10, 12, 13]

/-- `trim` -/
def trim (bytes : List UInt8) : List UInt8 :=
  (bytes.dropWhile isWhitespace).rdropWhile isWhitespace

/-- `split_inclusive`, at the ends of the lines. -/
def splitInclusive : List UInt8 → List (List UInt8)
  | [] => []
  | byte :: rest =>
    if byte = newline then [newline] :: splitInclusive rest
    else match splitInclusive rest with
      | [] => [[byte]]
      | line :: lines => (byte :: line) :: lines

/-- `split_setting` -/
def splitSetting (line : List UInt8) : Option (List UInt8 × List UInt8) :=
  if line.head? = some 35 then none
  else match line.dropWhile (· ≠ 61) with
    | [] => none
    | _ :: value => some (trim (line.takeWhile (· ≠ 61)), trim value)

/-- What a line gives for a key. -/
def read (key line : List UInt8) : Option (List UInt8) :=
  (splitSetting line).bind fun s => if s.1 = key then some s.2 else none

/-- The loop of `get`: the first line with the key. -/
def get (source key : List UInt8) : Option (List UInt8) :=
  (source.splitOn newline).findSome? (read key)

/-- `is_ascii_alphanumeric` -/
def isAlphanumeric (byte : UInt8) : Bool :=
  (48 ≤ byte ∧ byte ≤ 57) || (65 ≤ byte ∧ byte ≤ 90) || (97 ≤ byte ∧ byte ≤ 122)

/-- `valid_key` -/
def validKey (key : List UInt8) : Bool :=
  key ≠ [] && key.all fun byte => isAlphanumeric byte || byte == 95 || byte == 46

/-- `valid_value` -/
def validValue (value : List UInt8) : Bool :=
  value ≠ [] && value.all fun byte => byte ≠ newline && byte ≠ 13

/-! ### Updates -/

/-- The line that is written for a setting. -/
def setting (key value : List UInt8) : List UInt8 := key ++ 61 :: value

/-- `append_setting`, where `written` is what the output holds. -/
def appendSetting (capacity : ℕ) (written key value : List UInt8) : Option (List UInt8) :=
  let separator := if written ≠ [] ∧ written.getLast? ≠ some newline then [newline] else []
  let written := written ++ separator ++ setting key value ++ [newline]
  if capacity < written.length then none else some written

/-- `same_key` -/
def sameKey (key line : List UInt8) : Bool := (splitSetting (trim line)).any (·.1 = key)

/-- The loop of `update_setting`, and what comes after it. -/
def updateFrom (capacity : ℕ) (key value : List UInt8) :
    List (List UInt8) → List UInt8 → Bool → Option (List UInt8)
  | [], written, found => if found then some written else appendSetting capacity written key value
  | line :: lines, written, found =>
    if sameKey key line then
      if found then updateFrom capacity key value lines written true
      else (appendSetting capacity written key value).bind fun written =>
        updateFrom capacity key value lines written true
    else if capacity < written.length + line.length then none
    else updateFrom capacity key value lines (written ++ line) found

/-- `update_setting`, for an output of `capacity` bytes. -/
def updateSetting (capacity : ℕ) (source key value : List UInt8) : Option (List UInt8) :=
  updateFrom capacity key value (splitInclusive source) [] false

/-! ### Texts as lines -/

/-- The lines of a text, without what ends them. -/
def lines (source : List UInt8) : List (List UInt8) :=
  (splitInclusive source).map fun line => line.filter (· ≠ newline)

/-- The lines after an update. -/
def edit (key value : List UInt8) : List (List UInt8) → Bool → List (List UInt8)
  | [], found => if found then [] else [setting key value]
  | line :: rest, found =>
    if sameKey key line then
      if found then edit key value rest true else setting key value :: edit key value rest true
    else line :: edit key value rest found

/-- A text that is empty, or ends with a line. -/
def Closed (text : List UInt8) : Prop := text = [] ∨ ∃ init, text = init ++ [newline]

section Lines

variable {line text : List UInt8}

theorem splitInclusive_line (h : newline ∉ line) (rest : List UInt8) :
    splitInclusive (line ++ newline :: rest) = (line ++ [newline]) :: splitInclusive rest := by
  induction line with
  | nil => rw [nil_append, splitInclusive, if_pos rfl, nil_append]
  | cons byte line ih =>
    rw [mem_cons, not_or] at h
    rw [cons_append, splitInclusive, if_neg (Ne.symm h.1), ih h.2]
    rfl

theorem splitInclusive_of_not_mem (h : newline ∉ line) (hne : line ≠ []) :
    splitInclusive line = [line] := by
  induction line with
  | nil => exact absurd rfl hne
  | cons byte line ih =>
    rw [mem_cons, not_or] at h
    rw [splitInclusive, if_neg (Ne.symm h.1)]
    cases line with
    | nil => rfl
    | cons next line => rw [ih h.2 (cons_ne_nil _ _)]

theorem forall_ne {c : UInt8} (h : c ∉ line) : ∀ byte ∈ line, decide (byte ≠ c) = true :=
  fun _ hbyte => decide_eq_true fun heq => h (heq ▸ hbyte)

theorem filter_line (h : newline ∉ line) : line.filter (· ≠ newline) = line :=
  filter_eq_self.mpr (forall_ne h)

theorem lines_line (h : newline ∉ line) (rest : List UInt8) :
    lines (line ++ newline :: rest) = line :: lines rest := by
  rw [lines, splitInclusive_line h, map_cons, filter_append, filter_line h, lines]
  simp

theorem lines_of_not_mem (h : newline ∉ line) (hne : line ≠ []) : lines line = [line] := by
  rw [lines, splitInclusive_of_not_mem h hne, map_singleton, filter_line h]

/-- What holds of texts: of those without an end of a line, and of those that begin with a line. -/
theorem line_induction {P : List UInt8 → Prop} (hlast : ∀ line, newline ∉ line → P line)
    (hcons : ∀ line rest, newline ∉ line → P rest → P (line ++ newline :: rest))
    (text : List UInt8) : P text := by
  have hnot : ∀ line : List UInt8, (∀ b ∈ line, (b == newline) = false) → newline ∉ line :=
    fun line h hmem => by simpa using h newline hmem
  induction text using separator_induction (· == newline) with
  | hnone line h => exact hlast line (hnot line h)
  | hsome line byte rest h hbyte ih =>
    obtain rfl := eq_of_beq hbyte
    exact hcons line rest (hnot line h) ih

theorem lines_append (h : Closed text) (rest : List UInt8) :
    lines (text ++ rest) = lines text ++ lines rest := by
  rcases h with rfl | ⟨init, rfl⟩
  · rfl
  · rw [append_assoc, singleton_append]
    induction init using line_induction with
    | hlast line h =>
      rw [lines_line h, lines_line h]
      rfl
    | hcons line init h ih =>
      rw [append_assoc, append_assoc, cons_append, cons_append, lines_line h, lines_line h, ih]
      rfl

theorem get_eq (source key : List UInt8) :
    get source key = (lines source).findSome? (read key) := by
  rw [get]
  induction source using line_induction with
  | hlast line h =>
    rw [splitOn_eq_singleton h]
    by_cases hne : line = []
    · subst hne
      rfl
    · rw [lines_of_not_mem h hne]
  | hcons line rest h ih =>
    rw [lines_line h, splitOn_append_cons_self, splitOn_eq_singleton h, singleton_append,
      findSome?_cons, findSome?_cons, ih]

end Lines

/-! ### Settings -/

section Settings

variable {byte : UInt8} {key value line before other : List UInt8} {capacity : ℕ}

theorem dropWhile_equals (before after : List UInt8) :
    (before ++ 61 :: after).dropWhile isWhitespace =
      before.dropWhile isWhitespace ++ 61 :: after := by
  rw [dropWhile_append]
  split
  · rename_i h
    rw [isEmpty_iff.mp h]
    rfl
  · rfl

theorem trim_equals (before after : List UInt8) : trim (before ++ 61 :: after) =
    before.dropWhile isWhitespace ++ 61 :: after.rdropWhile isWhitespace := by
  rw [trim, dropWhile_equals, rdropWhile, reverse_append, reverse_cons, append_assoc,
    singleton_append, dropWhile_equals, rdropWhile]
  simp

theorem mem_of_mem_trim (h : byte ∈ trim line) : byte ∈ line := by
  have hdrop := (dropWhile_sublist _).subset (mem_reverse.mp h)
  exact (dropWhile_sublist _).subset (mem_reverse.mp hdrop)

theorem mem_dropWhile (h : byte ∈ line) (hbyte : isWhitespace byte = false) :
    byte ∈ line.dropWhile isWhitespace := by
  rw [← takeWhile_append_dropWhile (p := isWhitespace) (l := line)] at h
  refine (mem_append.mp h).resolve_left fun hmem => ?_
  rw [mem_takeWhile_imp hmem] at hbyte
  cases hbyte

theorem mem_trim (h : byte ∈ line) (hbyte : isWhitespace byte = false) : byte ∈ trim line :=
  mem_reverse.mpr (mem_dropWhile (mem_reverse.mpr (mem_dropWhile h hbyte)) hbyte)

theorem splitSetting_of_not_mem (h : 61 ∉ line) : splitSetting line = none := by
  have hdrop : line.dropWhile (· ≠ 61) = [] := dropWhile_eq_nil_iff.mpr (forall_ne h)
  rw [splitSetting, hdrop]
  split <;> rfl

theorem splitSetting_equals (h : 61 ∉ before) (after : List UInt8) :
    splitSetting (before ++ 61 :: after) =
      if before.head? = some 35 then none else some (trim before, trim after) := by
  have hhead : (before ++ 61 :: after).head? = some 35 ↔ before.head? = some 35 := by
    cases before <;> simp
  rw [splitSetting, dropWhile_append_of_pos (forall_ne h), takeWhile_append_of_pos (forall_ne h)]
  simp only [hhead]
  simp

/-- A key has neither blanks nor `=` nor `#` nor ends of lines. -/
theorem validKey_mem (hkey : validKey key = true) (h : byte ∈ key) :
    isWhitespace byte = false ∧ byte ≠ 61 ∧ byte ≠ 35 ∧ byte ≠ newline := by
  have hall := all_eq_true.mp (Bool.and_eq_true_iff.mp hkey).2 byte h
  have hnone : ∀ b ∈ ([32, 9, 10, 12, 13, 61, 35] : List UInt8),
      (isAlphanumeric b || b == 95 || b == 46) = false := by simp [isAlphanumeric]
  have hne : byte ∉ ([32, 9, 10, 12, 13, 61, 35] : List UInt8) := fun hmem =>
    Bool.false_ne_true ((hnone byte hmem).symm.trans hall)
  simp only [mem_cons, not_mem_nil, or_false, not_or] at hne
  simp [isWhitespace, newline, hne]

theorem trim_key (hkey : validKey key = true) : trim key = key := by
  have hstart : ∀ l : List UInt8, (∀ byte ∈ l, isWhitespace byte = false) →
      l.dropWhile isWhitespace = l := fun l h => by
    cases l with
    | nil => rfl
    | cons byte l => rw [dropWhile_cons_of_neg (by simp [h byte mem_cons_self])]
  have hclean : ∀ byte ∈ key, isWhitespace byte = false := fun byte h => (validKey_mem hkey h).1
  rw [trim, hstart _ hclean, rdropWhile, hstart _ fun byte h => hclean byte (mem_reverse.mp h),
    reverse_reverse]

/-- **The same key.** Whether an update trims a line or `get` does not, they find the same key. -/
theorem sameKey_iff (hkey : validKey key = true) (line : List UInt8) :
    sameKey key line = true ↔ ∃ value, splitSetting line = some (key, value) := by
  by_cases hmem : 61 ∈ line
  · obtain ⟨before, after, rfl, hbefore⟩ := eq_append_cons_of_mem hmem
    have hdrop : 61 ∉ before.dropWhile isWhitespace := fun h =>
      hbefore ((dropWhile_sublist _).subset h)
    have htrim : trim (before.dropWhile isWhitespace) = trim before := by
      rw [trim, trim, dropWhile_idempotent]
    rw [sameKey, trim_equals, splitSetting_equals hdrop, splitSetting_equals hbefore, htrim]
    by_cases hhash : 35 ∈ before
    · -- The key would have a `#`.
      have hne : trim before ≠ key := fun heq =>
        (validKey_mem hkey (heq ▸ mem_trim hhash (by decide))).2.2.1 rfl
      split <;> split <;> simp [hne]
    · rw [if_neg fun h => hhash ((dropWhile_sublist _).subset (mem_of_head? h)),
        if_neg fun h => hhash (mem_of_head? h)]
      simp
  · rw [sameKey, splitSetting_of_not_mem hmem,
      splitSetting_of_not_mem fun h => hmem (mem_of_mem_trim h)]
    simp

theorem splitSetting_setting (hkey : validKey key = true) (value : List UInt8) :
    splitSetting (setting key value) = some (key, trim value) := by
  rw [setting, splitSetting_equals (fun h => (validKey_mem hkey h).2.1 rfl), trim_key hkey, if_neg]
  exact fun h => (validKey_mem hkey (mem_of_head? h)).2.2.1 rfl

/-! ### What an edit does -/

variable {found : Bool}

theorem read_eq_none (hkey : validKey key = true) (h : ¬ sameKey key line = true) :
    read key line = none := by
  rw [sameKey_iff hkey, not_exists] at h
  rw [read]
  cases hline : splitSetting line with
  | none => rfl
  | some s => exact if_neg fun heq : s.1 = key => h s.2 (hline.trans (by rw [← heq]))

theorem findSome_edit_self (hkey : validKey key = true) (value : List UInt8)
    (lines : List (List UInt8)) :
    (edit key value lines false).findSome? (read key) = some (trim value) := by
  have hread : read key (setting key value) = some (trim value) := by
    rw [read, splitSetting_setting hkey]
    exact if_pos rfl
  induction lines with
  | nil =>
    rw [edit, if_neg Bool.false_ne_true, findSome?_cons, hread]
  | cons line lines ih =>
    rw [edit]
    split
    · rw [if_neg Bool.false_ne_true, findSome?_cons, hread]
    · rename_i hother
      rw [findSome?_cons, read_eq_none hkey hother]
      exact ih

theorem findSome_edit_of_ne (hkey : validKey key = true) (value : List UInt8) (hne : other ≠ key)
    (lines : List (List UInt8)) :
    (edit key value lines found).findSome? (read other) = lines.findSome? (read other) := by
  have hnone : ∀ line v, splitSetting line = some (key, v) → read other line = none :=
    fun line v h => by
      rw [read, h]
      exact if_neg hne.symm
  have hread := hnone _ _ (splitSetting_setting hkey value)
  induction lines generalizing found with
  | nil =>
    rw [edit]
    split
    · rfl
    · rw [findSome?_cons, hread]
  | cons line lines ih =>
    rw [edit]
    split
    · rename_i hsame
      obtain ⟨v, hv⟩ := (sameKey_iff hkey line).mp hsame
      rw [findSome?_cons, hnone line v hv]
      split
      · exact ih
      · rw [findSome?_cons, hread]
        exact ih
    · rw [findSome?_cons, findSome?_cons, ih]

theorem filter_edit (hkey : validKey key = true) (value : List UInt8)
    (lines : List (List UInt8)) :
    (edit key value lines found).filter (!sameKey key ·) = lines.filter (!sameKey key ·) := by
  have hsetting : sameKey key (setting key value) = true :=
    (sameKey_iff hkey _).mpr ⟨_, splitSetting_setting hkey value⟩
  induction lines generalizing found with
  | nil =>
    rw [edit]
    split
    · rfl
    · rw [filter_cons_of_neg (by simpa using hsetting)]
  | cons line lines ih =>
    rw [edit]
    split
    · rename_i hsame
      rw [filter_cons_of_neg (by simpa using hsame)]
      split
      · exact ih
      · rw [filter_cons_of_neg (by simpa using hsetting)]
        exact ih
    · rename_i hother
      rw [filter_cons_of_pos (by simpa using hother), filter_cons_of_pos (by simpa using hother),
        ih]

end Settings

/-! ### Updates are edits -/

section Updates

variable {byte : UInt8} {key value line written new source : List UInt8} {capacity : ℕ}
  {found : Bool}

theorem closed_line (written line : List UInt8) : Closed (written ++ line ++ [newline]) :=
  Or.inr ⟨_, rfl⟩

theorem newline_not_mem_setting (hkey : validKey key = true) (hvalue : validValue value = true) :
    newline ∉ setting key value := by
  intro h
  rcases mem_append.mp h with h | h
  · exact (validKey_mem hkey h).2.2.2 rfl
  · rcases mem_cons.mp h with h | h
    · revert h
      decide
    · have hall := all_eq_true.mp (Bool.and_eq_true_iff.mp hvalue).2 newline h
      revert hall
      decide

/-- What is appended is a line of its own. -/
theorem lines_appendSetting (hkey : validKey key = true) (hvalue : validValue value = true)
    (hwritten : Closed written) (hline : newline ∉ line)
    (h : appendSetting capacity (written ++ line) key value = some new) :
    Closed new ∧ lines new = lines written ++ lines line ++ [setting key value] := by
  rw [appendSetting] at h
  generalize hseparator : (if written ++ line ≠ [] ∧ (written ++ line).getLast? ≠ some newline then
    [newline] else []) = separator at h
  split at h
  · cases h
  obtain rfl := Option.some.inj h
  refine ⟨Or.inr ⟨_, rfl⟩, ?_⟩
  have hlast : lines (setting key value ++ [newline]) = [setting key value] :=
    lines_line (newline_not_mem_setting hkey hvalue) []
  by_cases hne : line = []
  · subst hne
    rw [if_neg] at hseparator
    · rw [← hseparator, append_nil, append_nil, append_assoc, lines_append hwritten, hlast]
      exact congrArg (· ++ _) (append_nil _).symm
    · rintro ⟨hnil, hend⟩
      rcases hwritten with rfl | ⟨init, rfl⟩
      · exact hnil rfl
      · exact hend (by simp)
  · rw [if_pos] at hseparator
    · rw [← hseparator, append_assoc _ (setting key value), lines_append (closed_line _ _), hlast,
        append_assoc, lines_append hwritten, lines_line hline, lines_of_not_mem hline hne]
      rfl
    · refine ⟨fun hnil => hne (append_eq_nil_iff.mp hnil).2, fun hend => hline ?_⟩
      rw [getLast?_append_of_ne_nil _ hne] at hend
      exact mem_of_getLast? hend

theorem sameKey_newline (key line : List UInt8) :
    sameKey key (line ++ [newline]) = sameKey key line := by
  have htrim : trim (line ++ [newline]) = trim line := by
    rw [trim, trim, dropWhile_append]
    split
    · rename_i hblank
      rw [isEmpty_iff.mp hblank]
      rfl
    · exact rdropWhile_concat_pos _ _ _ rfl
  rw [sameKey, sameKey, htrim]

/-- The end of an update, behind a line that may lack its end. -/
theorem lines_updateFrom_nil (hkey : validKey key = true) (hvalue : validValue value = true)
    (hwritten : Closed written) (hline : newline ∉ line)
    (h : updateFrom capacity key value [] (written ++ line) found = some new) :
    lines new = lines written ++ lines line ++ edit key value [] found := by
  rw [updateFrom] at h
  rw [edit]
  split at h
  · rename_i hfound
    rw [← Option.some.inj h, if_pos hfound, append_nil, lines_append hwritten]
  · rename_i hfound
    rw [if_neg hfound, (lines_appendSetting hkey hvalue hwritten hline h).2]

/-- One line more of an update, when the rest of it is an edit. -/
theorem lines_updateFrom_cons {raw : List UInt8} {raws after : List (List UInt8)}
    (hkey : validKey key = true) (hvalue : validValue value = true) (hwritten : Closed written)
    (hraw : sameKey key raw = sameKey key line)
    (hrest : ∀ text found, Closed text → updateFrom capacity key value raws text found = some new →
      lines new = lines text ++ edit key value after found)
    (hother : updateFrom capacity key value raws (written ++ raw) found = some new →
      lines new = lines written ++ line :: edit key value after found)
    (h : updateFrom capacity key value (raw :: raws) written found = some new) :
    lines new = lines written ++ edit key value (line :: after) found := by
  rw [updateFrom, hraw] at h
  rw [edit]
  by_cases hsame : sameKey key line = true
  · rw [if_pos hsame] at h ⊢
    by_cases hfound : found = true
    · rw [if_pos hfound] at h ⊢
      exact hrest _ _ hwritten h
    · rw [if_neg hfound] at h ⊢
      obtain ⟨text, htext, h⟩ := Option.bind_eq_some_iff.mp h
      rw [← append_nil written] at htext
      obtain ⟨hclosed, hlines⟩ := lines_appendSetting hkey hvalue hwritten not_mem_nil htext
      rw [hrest _ _ hclosed h, hlines]
      simp [lines, splitInclusive]
  · rw [if_neg hsame] at h ⊢
    split at h
    · cases h
    · exact hother h

/-- **An update is an edit** of the lines. -/
theorem lines_updateFrom (hkey : validKey key = true) (hvalue : validValue value = true)
    (hwritten : Closed written)
    (h : updateFrom capacity key value (splitInclusive source) written found = some new) :
    lines new = lines written ++ edit key value (lines source) found := by
  have hend : ∀ text found, Closed text → updateFrom capacity key value [] text found = some new →
      lines new = lines text ++ edit key value [] found := fun text found htext h => by
    rw [← append_nil text] at h
    rw [lines_updateFrom_nil hkey hvalue htext not_mem_nil h]
    simp [lines, splitInclusive]
  induction source using line_induction generalizing written found with
  | hlast line hline =>
    by_cases hne : line = []
    · subst hne
      exact hend _ _ hwritten h
    · rw [splitInclusive_of_not_mem hline hne] at h
      rw [lines_of_not_mem hline hne]
      refine lines_updateFrom_cons hkey hvalue hwritten rfl hend (fun h => ?_) h
      rw [lines_updateFrom_nil hkey hvalue hwritten hline h, lines_of_not_mem hline hne,
        append_assoc, singleton_append]
  | hcons line rest hline ih =>
    rw [splitInclusive_line hline] at h
    rw [lines_line hline]
    refine lines_updateFrom_cons hkey hvalue hwritten (sameKey_newline key line)
      (fun _ _ => ih) (fun h => ?_) h
    rw [← append_assoc] at h
    rw [ih (closed_line _ _) h, append_assoc, lines_append hwritten, lines_line hline, append_assoc]
    rfl

/-- **Headline.** After an update the option has the trimmed value, every other one has the value
that it had, and the lines that do not set the option are the ones that there were. -/
theorem updateSetting_spec (hkey : validKey key = true) (hvalue : validValue value = true)
    (h : updateSetting capacity source key value = some new) :
    get new key = some (trim value) ∧ (∀ other ≠ key, get new other = get source other) ∧
      (lines new).filter (!sameKey key ·) = (lines source).filter (!sameKey key ·) := by
  have hlines : lines new = edit key value (lines source) false :=
    lines_updateFrom hkey hvalue (Or.inl rfl) h
  refine ⟨?_, fun other hne => ?_, ?_⟩
  · rw [get_eq, hlines]
    exact findSome_edit_self hkey value _
  · rw [get_eq, get_eq, hlines]
    exact findSome_edit_of_ne hkey value hne _
  · rw [hlines]
    exact filter_edit hkey value _

end Updates

/-- The lines `k=a`, ` k =b` and `j=c`, the last one without its end. -/
def sampleSource : List UInt8 := [107, 61, 97, 10, 32, 107, 32, 61, 98, 10, 106, 61, 99]

/-- The value ` d` for `k`. -/
theorem updateSetting_sample : ∃ new, updateSetting 64 sampleSource [107] [32, 100] = some new ∧
    get new [107] = some [100] ∧ get new [106] = some [99] := by
  have hupdate : updateSetting 64 sampleSource [107] [32, 100] =
      some [107, 61, 32, 100, 10, 106, 61, 99] := by decide +kernel
  obtain ⟨hself, hother, -⟩ := updateSetting_spec (by decide +kernel) (by decide +kernel) hupdate
  exact ⟨_, hupdate, hself, (hother [106] (by decide)).trans (by decide +kernel)⟩

end ImagineOS.Globalconf
