import ImagineOS.Shell.Expand

/-!
# Shell: words that mean nothing to it

Another shell runs a builtin stage: `execve_stage` joins its words to a line and starts `/bin/shell`
with `-c`. Words are plain if no byte of them means anything to a shell, and if they fit that line.
Plain words come back as they were (`faithful_of_plain`), since the line is read word by word, each
from one unquoted run.
-/

namespace ImagineOS.Shell

open List Bool

/-- A byte that means nothing to the shell, at the start of a reference apart. -/
def isBare (b : UInt8) : Bool := !endsRun [b] && !isWhitespace b

/-- Whether a `$` of these bytes starts a reference. -/
def hasReference : List UInt8 → Bool
  | [] => false
  | byte :: rest => (byte == dollar && (parseReference rest).1 != []) || hasReference rest

/-- A word that means nothing to the shell. -/
structure PlainWord (word : List UInt8) : Prop where
  ne_nil : word ≠ []
  bare : ∀ b ∈ word, isBare b
  not_comment : word.head? ≠ some hash
  no_reference : hasReference word = false

/-- Words with a space between two of them. -/
def joined : List (List UInt8) → List UInt8
  | [] => []
  | word :: words => word ++ words.flatMap (32 :: ·)

/-- Words that mean nothing to the shell, and that fit the line. -/
structure Plain (words : List (List UInt8)) : Prop where
  fits : (joined words).length ≤ fieldSize
  plain : ∀ word ∈ words, PlainWord word

/-- The entries are one simple command, whose words these are. -/
def Runs (environment : Environment) (words : List (List UInt8)) (entries : List Entry) : Prop :=
  ∃ command connector, entries = [⟨⟨[command]⟩, connector⟩] ∧ command.stdin = none ∧
    command.stdout = none ∧ command.words.flatMap (expand environment) = words

/-- The other shell reports an error, or runs these words and nothing else. -/
def Faithful (environment : Environment) (arguments : Arguments) : Prop :=
  (∃ error, runBuiltinStage arguments = .error error) ∨
    ∃ entries, runBuiltinStage arguments = .ok entries ∧ Runs environment arguments.words entries

variable {environment : Environment} {word line rest run : List UInt8} {words : List (List UInt8)}
variable {segment : Segment} {room : ℕ}

/-! ### Joining -/

theorem take_copied (line word rest : List UInt8) (n : ℕ) :
    (line ++ word.take (n - line.length) ++ rest).take n = (line ++ word ++ rest).take n := by
  rw [take_append, @take_append _ (line ++ word), length_append,
    length_append, length_take, take_append, take_append, take_take, Nat.min_self]
  rcases Nat.le_total word.length (n - line.length) with hle | hle
  · rw [Nat.min_eq_right hle]
  · have hcut : n - (line.length + (n - line.length)) = 0 := by omega
    have hfull : n - (line.length + word.length) = 0 := by omega
    rw [Nat.min_eq_left hle, hcut, hfull]

theorem joinLoop_eq (hline : line.length ≤ fieldSize) :
    joinLoop line words = (line ++ words.flatMap (32 :: ·)).take fieldSize := by
  induction words generalizing line with
  | nil => rw [joinLoop, flatMap_nil, append_nil, take_of_length_le hline]
  | cons word words ih =>
    rw [joinLoop]
    split
    · rename_i hfull
      rw [← hfull, take_left]
    · have hlen : (line ++ [32]).length = line.length + 1 := by simp
      rw [← hlen, ih (by simp only [length_append, length_take, hlen]; omega), take_copied]
      simp

theorem joinArguments_eq : joinArguments words = (joined words).take fieldSize := by
  cases words with
  | nil => rfl
  | cons word words =>
    rw [joinArguments, joinLoop_eq (length_take_le ..), joined]
    simpa using take_copied [] word (words.flatMap (32 :: ·)) fieldSize

/-! ### Reading plain words -/

theorem operatorAt_isSome (b : UInt8) (rest : List UInt8) :
    (operatorAt (b :: rest)).isSome = (b == 38 || b == 124 || b == 62 || b == 59 || b == 60) := by
  unfold operatorAt
  split <;> simp_all

theorem endsRun_cons (b : UInt8) (rest : List UInt8) : endsRun (b :: rest) = endsRun [b] := by
  simp only [endsRun, operatorAt_isSome]

theorem not_endsRun {b : UInt8} (h : isBare b) (rest : List UInt8) :
    endsRun (b :: rest) = false := by
  rw [endsRun_cons]
  simp only [isBare, and_eq_true, not_eq_true'] at h
  exact h.1

theorem unquotedRun_append (hrun : ∀ b ∈ run, isBare b) (hrest : endsRun rest) :
    unquotedRun (run ++ rest) = (run, rest) := by
  induction run with
  | nil =>
    cases rest with
    | nil => rfl
    | cons b rest => simp [unquotedRun, hrest]
  | cons b run ih =>
    rw [forall_mem_cons] at hrun
    rw [cons_append, unquotedRun, not_endsRun hrun.1, ih hrun.2]
    simp

theorem foldlM_pushByte (bytes : List UInt8) (segment : Segment)
    (h : segment.bytes.length + bytes.length ≤ tokenSize) :
    bytes.foldlM Segment.pushByte segment =
      .ok { segment with bytes := segment.bytes ++ bytes } := by
  induction bytes generalizing segment with
  | nil => simp [pure, Except.pure]
  | cons b bytes ih =>
    rw [length_cons] at h
    have hpush : segment.pushByte b = .ok { segment with bytes := segment.bytes ++ [b] } := by
      rw [Segment.pushByte, if_neg (by omega)]
    rw [foldlM_cons, hpush]
    exact (ih _ (by simp only [length_append, length_singleton]; omega)).trans (by simp)

theorem ofBytes_ok {bytes : List UInt8} {kind : SegmentKind} {copiesVariable : Bool}
    (h : bytes.length ≤ tokenSize) :
    Segment.ofBytes bytes kind copiesVariable = .ok ⟨bytes, kind, copiesVariable⟩ :=
  foldlM_pushByte bytes ⟨[], kind, copiesVariable⟩ (by simpa using h)

/-- A word of one unquoted run. -/
def Word.ofRun (run : List UInt8) : Word := ⟨[⟨run, .unquoted, run.contains dollar⟩]⟩

theorem endsRun_of_endsWord (h : endsWord rest) : endsRun rest := by
  cases rest with
  | nil => rfl
  | cons b rest =>
    simp only [endsWord, or_eq_true] at h
    simp only [endsRun, or_eq_true]
    tauto

theorem bare_ne {b : UInt8} (h : isBare b) :
    b ≠ singleQuote ∧ b ≠ doubleQuote ∧ b ≠ backslash ∧ isBlank b = false ∧
      isWhitespace b = false ∧ ∀ rest, operatorAt (b :: rest) = none := by
  simp only [isBare, endsRun, and_eq_true, not_eq_true', or_eq_false_iff,
    beq_eq_false_iff_ne] at h
  obtain ⟨⟨⟨⟨⟨hblank, hsingle⟩, hdouble⟩, hback⟩, hop⟩, hspace⟩ := h
  refine ⟨hsingle, hdouble, hback, hblank, hspace, fun rest => ?_⟩
  rw [operatorAt_isSome] at hop
  rw [← Option.not_isSome_iff_eq_none, operatorAt_isSome, hop]
  exact false_ne_true

theorem readSegment_run (hrun : ∀ b ∈ run, isBare b) (hne : run ≠ [])
    (hlen : run.length ≤ tokenSize) (hrest : endsRun rest) :
    readSegment (run ++ rest) = .ok (⟨run, .unquoted, run.contains dollar⟩, rest) := by
  obtain ⟨b, tail, rfl⟩ := exists_cons_of_ne_nil hne
  obtain ⟨hsingle, hdouble, hback, -⟩ := bare_ne (hrun b mem_cons_self)
  rw [cons_append, readSegment.eq_def]
  simp only [if_neg hsingle, if_neg hdouble, if_neg hback]
  rw [← cons_append, unquotedRun_append hrun hrest]
  simp only [ofBytes_ok hlen]
  rfl

theorem readWord_run (hrun : ∀ b ∈ run, isBare b) (hne : run ≠ []) (hlen : run.length ≤ tokenSize)
    (hrest : endsWord rest) : readWord maxSegments ⟨[]⟩ (run ++ rest) = .ok (.ofRun run, rest) := by
  obtain ⟨b, tail, rfl⟩ := exists_cons_of_ne_nil hne
  obtain ⟨-, -, -, hblank, -, hop⟩ := bare_ne (hrun b mem_cons_self)
  have hstart : endsWord (b :: tail ++ rest) = false := by
    rw [cons_append, endsWord, hblank, hop]
    rfl
  rw [maxSegments, readWord, hstart, if_neg Bool.false_ne_true,
    readSegment_run hrun hne hlen (endsRun_of_endsWord hrest)]
  change readWord 1 _ rest = _
  rw [readWord, if_pos hrest]
  rfl

theorem tokenizeLoop_blank {b : UInt8} (h : isBlank b) :
    tokenizeLoop room (b :: line) = tokenizeLoop room line := by
  rw [tokenizeLoop, tokenizeLoop, dropWhile_cons_of_pos h]

theorem endsWord_joined : endsWord (words.flatMap (32 :: ·)) := by
  cases words <;> rfl

theorem tokenizeLoop_plain (hwords : ∀ word ∈ words, PlainWord word)
    (hlen : ∀ word ∈ words, word.length ≤ tokenSize) (hroom : words.length ≤ room) :
    tokenizeLoop room (words.flatMap (32 :: ·)) =
      .ok (words.map fun word => .word (.ofRun word)) := by
  induction words generalizing room with
  | nil => cases room <;> rfl
  | cons word words ih =>
    rw [forall_mem_cons] at hwords hlen
    obtain ⟨b, tail, rfl⟩ := exists_cons_of_ne_nil hwords.1.ne_nil
    obtain ⟨room, rfl⟩ := Nat.exists_eq_succ_of_ne_zero (Nat.ne_zero_of_lt hroom)
    obtain ⟨-, -, -, hblank, -, hop⟩ := bare_ne (hwords.1.bare b mem_cons_self)
    have hcomment : b ≠ hash := fun h => hwords.1.not_comment (by rw [h]; rfl)
    rw [flatMap_cons, cons_append, tokenizeLoop_blank (by rfl), cons_append,
      tokenizeLoop, dropWhile_cons_of_neg (by simp [hblank])]
    simp only [hop, if_neg hcomment]
    rw [← cons_append, readWord_run hwords.1.bare (by simp) hlen.1 endsWord_joined]
    change (tokenizeLoop room (words.flatMap (32 :: ·)) >>= _) = _
    rw [ih hwords.2 hlen.2 (Nat.le_of_succ_le_succ hroom)]
    rfl

theorem tokenize_joined (hwords : ∀ word ∈ words, PlainWord word)
    (hlen : ∀ word ∈ words, word.length ≤ tokenSize) (hroom : words.length ≤ maxTokens) :
    tokenize (joined words) = .ok (words.map fun word => .word (.ofRun word)) := by
  rw [tokenize, ← tokenizeLoop_plain hwords hlen hroom]
  cases words with
  | nil => rfl
  | cons word words =>
    rw [flatMap_cons, cons_append, tokenizeLoop_blank (by rfl), joined]

/-! ### Parsing plain words -/

theorem parseCommandLoop_words {list : List Word} {command : Command}
    (hroom : command.words.length + list.length ≤ maxWords)
    (hne : 0 < command.words.length + list.length) :
    parseCommandLoop (list.map .word) command .none =
      .ok ({ command with words := command.words ++ list }, []) := by
  induction list generalizing command with
  | nil =>
    have hwords : command.words.length ≠ 0 := Nat.ne_of_gt hne
    rw [map_nil, parseCommandLoop, finishCommand, if_neg (by simp), if_neg hwords, append_nil]
  | cons word list ih =>
    rw [length_cons] at hroom
    have hlength : (command.words ++ [word]).length = command.words.length + 1 := by simp
    rw [map_cons, parseCommandLoop, if_neg (by omega),
      ih (by rw [hlength]; omega) (by rw [hlength]; omega)]
    simp

theorem parseList_words {list : List Word} (hroom : list.length ≤ maxWords) (hne : list ≠ []) :
    parseList (list.map .word) = .ok [⟨⟨[⟨list, none, none, false⟩]⟩, .end_⟩] := by
  have hcommand : parseCommand (list.map .word) = .ok (⟨list, none, none, false⟩, []) := by
    have hempty : Command.empty.words.length + list.length = list.length := Nat.zero_add _
    exact parseCommandLoop_words (by rwa [hempty])
      (by rw [hempty]; exact length_pos_of_ne_nil hne)
  obtain ⟨word, tail, rfl⟩ := exists_cons_of_ne_nil hne
  rw [map_cons] at hcommand ⊢
  simp only [parseList, maxEntries, parseEntries, parsePipeline, maxPipeline, parseStages, hcommand]
  rfl

/-! ### Expanding plain words -/

theorem expandBytes_plain (h : hasReference run = false) : expandBytes environment 0 run = run := by
  induction run with
  | nil => rfl
  | cons b run ih =>
    simp only [hasReference, or_eq_false_iff, and_eq_false_iff, bne_eq_false_iff_eq,
      beq_eq_false_iff_ne] at h
    rw [expandBytes]
    split
    · rw [ih h.2]
    · rename_i hdollar
      have hb : b = dollar := not_not.mp hdollar
      have hname : (parseReference run).1 = [] := h.1.resolve_left fun hne => hne hb
      split
      · rw [ih h.2, hb]
      · rename_i name width _ heq
        rw [heq] at hname
        rename_i hne
        exact absurd hname hne

theorem splitFields_single (hne : run ≠ []) (hrun : ∀ b ∈ run, isWhitespace b = false)
    (hlen : run.length ≤ fieldSize) : splitFields run = [run] := by
  have hsplit : run.splitOnP isWhitespace = [run] :=
    splitOnP_eq_singleton fun b hb => by simp [hrun b hb]
  rw [splitFields, hsplit]
  simp [hne, pushField, maxFields, Nat.not_lt.mpr hlen]

theorem expand_plain (hword : PlainWord word) (hlen : word.length ≤ fieldSize) :
    expand environment (.ofRun word) = [word] := by
  have hsegment : expandSegments environment (Word.ofRun word).segments ([], false) =
    (word, true) := by
    simp only [Word.ofRun, expandSegments, expandSegment, expandBytes_plain hword.no_reference,
      nil_append, take_of_length_le hlen, length_nil, Nat.zero_add]
    split
    · rfl
    · rw [if_neg (Nat.not_lt.mpr hlen)]
  rw [expand, hsegment]
  exact splitFields_single hword.ne_nil (fun b hb => (bare_ne (hword.bare b hb)).2.2.2.2.1) hlen

theorem flatMap_expand_plain (hwords : ∀ word ∈ words, PlainWord word)
    (hlen : ∀ word ∈ words, word.length ≤ fieldSize) :
    (words.map Word.ofRun).flatMap (expand environment) = words := by
  induction words with
  | nil => rfl
  | cons word words ih =>
    rw [forall_mem_cons] at hwords hlen
    rw [map_cons, flatMap_cons, expand_plain hwords.1 hlen.1, ih hwords.2 hlen.2]
    rfl

/-- **Plain words come back** as they were, whatever the variables of the other shell. -/
theorem faithful_of_plain {arguments : Arguments} (hne : arguments.words ≠ [])
    (hplain : Plain arguments.words) : Faithful environment arguments := by
  have hline : joinArguments arguments.words = joined arguments.words := by
    rw [joinArguments_eq, take_of_length_le hplain.fits]
  obtain ⟨word, words, hwords⟩ := exists_cons_of_ne_nil hne
  have hspace : (joined arguments.words).all isWhitespace = false := by
    obtain ⟨b, tail, hword⟩ := exists_cons_of_ne_nil
      (hplain.plain word (hwords ▸ mem_cons_self)).ne_nil
    have hb := (hplain.plain word (hwords ▸ mem_cons_self)).bare b (hword ▸ mem_cons_self)
    rw [hwords, joined, hword, cons_append, all_cons, (bare_ne hb).2.2.2.2.1]
    rfl
  have htokens := tokenize_joined hplain.plain arguments.size_le
    (Nat.le_trans arguments.length_le (by decide))
  have hentries : parseList (arguments.words.map fun word => .word (.ofRun word)) =
      .ok [⟨⟨[⟨arguments.words.map Word.ofRun, none, none, false⟩]⟩, .end_⟩] := by
    rw [← parseList_words (by simpa using arguments.length_le) (by simpa using hne), map_map]
    rfl
  unfold Faithful runBuiltinStage
  simp only [hline, hspace, htokens]
  split
  · exact Or.inl ⟨_, rfl⟩
  · split
    · exact Or.inl ⟨_, rfl⟩
    · refine Or.inr ⟨_, ?_, ⟨arguments.words.map Word.ofRun, none, none, false⟩, .end_, rfl, rfl,
        rfl, flatMap_expand_plain hplain.plain arguments.size_le⟩
      rw [if_neg Bool.false_ne_true, hentries]

end ImagineOS.Shell
