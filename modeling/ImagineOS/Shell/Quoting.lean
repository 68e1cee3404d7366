import ImagineOS.SepBy
import ImagineOS.Shell.Weights

/-!
# Shell: the line of a builtin stage

The words of a builtin stage are joined without being quoted again. The other shell reads them as
they were exactly if they are plain (`faithful_iff`). All others are cut at their blanks, at their
operators or at the end of the line, or lose their quotes or what looks like a reference, unless the
line is refused.
-/

namespace ImagineOS.Shell

open List Nat

variable {environment : Environment} {word rest : List UInt8} {words : List (List UInt8)}

variable {segment : Segment} {room : ℕ}

/-! ### The command of the tokens -/

variable {tokens after : List Token} {command command' : Command} {pending : RedirectSlot}

theorem finishCommand_ok (h : finishCommand command pending tokens = .ok (command', after)) :
    pending = .none ∧ command' = command ∧ after = tokens := by
  rw [finishCommand] at h
  split at h
  · cases h
  · rename_i hpending
    split at h
    · cases h
    · cases h
      exact ⟨not_not.mp hpending, rfl, rfl⟩

theorem parseCommandLoop_redirect
    (h : parseCommandLoop tokens command pending = .ok (command', after))
    (hredirect : command.stdin ≠ none ∨ command.stdout ≠ none ∨ pending ≠ .none) :
    command'.stdin ≠ none ∨ command'.stdout ≠ none := by
  fun_induction parseCommandLoop tokens command pending with
  | case1 command pending =>
    obtain ⟨hpending, rfl, -⟩ := finishCommand_ok h
    simpa [hpending] using hredirect
  | case2 word rest command ih => exact ih h (by simp)
  | case3 word rest command ih => exact ih h (by simp)
  | case5 word rest command hroom ih => exact ih h (by simpa using hredirect)
  | case7 rest command pending hpending ih => exact ih h (by simp)
  | case9 rest command pending hpending ih => exact ih h (by simp)
  | case11 rest command pending hpending ih => exact ih h (by simp)
  | case12 rest command pending operator =>
    obtain ⟨hpending, rfl, -⟩ := finishCommand_ok h
    simpa [hpending] using hredirect
  | case4 | case6 | case8 | case10 => cases h

/-- A command without redirections is made of words. -/
theorem parseCommandLoop_simple
    (h : parseCommandLoop tokens command pending = .ok (command', after))
    (hin : command'.stdin = none) (hout : command'.stdout = none) :
    ∃ words : List Word, command'.words = command.words ++ words ∧
      tokens = words.map .word ++ after := by
  have hsimple : ¬ (command'.stdin ≠ none ∨ command'.stdout ≠ none) := by simp [hin, hout]
  fun_induction parseCommandLoop tokens command pending with
  | case1 command pending =>
    obtain ⟨-, rfl, rfl⟩ := finishCommand_ok h
    exact ⟨[], by simp, rfl⟩
  | case2 word rest command ih => exact absurd (parseCommandLoop_redirect h (by simp)) hsimple
  | case3 word rest command ih => exact absurd (parseCommandLoop_redirect h (by simp)) hsimple
  | case5 word rest command hroom ih =>
    obtain ⟨words, hwords, rfl⟩ := ih h
    exact ⟨word :: words, by simp [hwords], rfl⟩
  | case7 rest command pending hpending ih =>
    exact absurd (parseCommandLoop_redirect h (by simp)) hsimple
  | case9 rest command pending hpending ih =>
    exact absurd (parseCommandLoop_redirect h (by simp)) hsimple
  | case11 rest command pending hpending ih =>
    exact absurd (parseCommandLoop_redirect h (by simp)) hsimple
  | case12 rest command pending operator =>
    obtain ⟨-, rfl, rfl⟩ := finishCommand_ok h
    exact ⟨[], by simp, rfl⟩
  | case4 | case6 | case8 | case10 => cases h

theorem parseStages_ok {commands : List Command} {pipeline : Pipeline}
    (h : parseStages room commands tokens = .ok (pipeline, after)) :
    ∃ command next, parseCommand tokens = .ok (command, next) ∧
      (commands ++ [command]) <+: pipeline.commands := by
  induction room generalizing commands tokens with
  | zero => cases tokens <;> cases h
  | succ room ih =>
    cases tokens with
    | nil => cases h
    | cons token tokens =>
      rw [parseStages.eq_def] at h
      obtain ⟨⟨command, next⟩, hcommand, h⟩ := bind_eq_ok.mp h
      refine ⟨command, next, hcommand, ?_⟩
      dsimp only at h
      split at h
      · obtain ⟨_, _, _, hsub⟩ := ih h
        exact (prefix_append _ _).trans hsub
      · cases h
        exact prefix_refl _

theorem parseList_simple {connector : Connector}
    (h : parseList tokens = .ok [⟨⟨[command]⟩, connector⟩])
    (hin : command.stdin = none) (hout : command.stdout = none) :
    ∃ after, tokens = command.words.map .word ++ after := by
  rw [parseList, maxEntries, parseEntries.eq_def] at h
  split at h
  · cases h
  · cases h
  · obtain ⟨⟨pipeline, next, joint⟩, hpipeline, h⟩ := bind_eq_ok.mp h
    have hfirst : pipeline = ⟨[command]⟩ := by
      dsimp only at h
      split at h
      · cases h
        rfl
      · obtain ⟨entries, -, h⟩ := bind_eq_ok.mp h
        cases h
        rfl
    obtain ⟨⟨stages, rest⟩, hstages, h⟩ := bind_eq_ok.mp hpipeline
    obtain ⟨⟨rest', _⟩, _, h⟩ := bind_eq_ok.mp h
    cases h
    obtain ⟨first, next, hcommand, hsub⟩ := parseStages_ok hstages
    rw [hfirst, nil_append, cons_prefix_cons] at hsub
    obtain ⟨rfl, -⟩ := hsub
    obtain ⟨words, hwords, htokens⟩ := parseCommandLoop_simple hcommand hin hout
    exact ⟨next, by rw [htokens, hwords]; rfl⟩

/-! ### Fields -/

/-- The variables hold no `$`. -/
def Clear (environment : Environment) : Prop :=
  ∀ name value, environment.get name = some value → dollar ∉ value

/-- What stands for a reference holds no `$`. -/
theorem count_value (hclear : Clear environment) (name : List UInt8) :
    ((environment.get name).getD []).count dollar = 0 := by
  cases hget : environment.get name with
  | none => rfl
  | some value => exact count_eq_zero.mpr (hclear name value hget)

theorem count_expandBytes (hclear : Clear environment) (skip : ℕ) (bytes : List UInt8) :
    (expandBytes environment skip bytes).count dollar ≤ bytes.count dollar := by
  fun_induction expandBytes environment skip bytes with
  | case1 => exact Nat.le_refl _
  | case2 skip b bytes ih => exact Nat.le_trans ih ((sublist_cons_self b bytes).count_le _)
  | case3 b bytes hb ih =>
    rw [count_cons, count_cons]
    exact Nat.add_le_add_right ih _
  | case4 b bytes hb _ _ ih =>
    rw [not_not.mp hb, count_cons_self, count_cons_self]
    exact Nat.add_le_add_right ih 1
  | case5 b bytes hb name width _ _ ih =>
    rw [count_append, count_value hclear, Nat.zero_add]
    exact Nat.le_trans ih ((sublist_cons_self b bytes).count_le _)

/-- **A reference costs its `$`.** -/
theorem count_expandBytes_lt (hclear : Clear environment) {bytes : List UInt8}
    (h : hasReference bytes) :
    (expandBytes environment 0 bytes).count dollar < bytes.count dollar := by
  induction bytes with
  | nil => cases h
  | cons b bytes ih =>
    rw [expandBytes]
    simp only [hasReference, Bool.or_eq_true, Bool.and_eq_true, beq_iff_eq, bne_iff_ne] at h
    split
    · rename_i hb
      rw [count_cons, count_cons]
      exact Nat.add_lt_add_right (ih (h.resolve_left fun h => hb h.1)) _
    · rename_i hb
      rw [not_not.mp hb, count_cons_self]
      split
      · rename_i heq
        rw [count_cons_self]
        exact Nat.add_lt_add_right (ih (h.resolve_left fun h => h.2 (by rw [heq]))) 1
      · rw [count_append, count_value hclear, Nat.zero_add]
        exact Nat.lt_succ_of_le (count_expandBytes hclear _ _)

/-- A field that was cut, or that lost a `$`. -/
def Reduced (field bytes : List UInt8) : Prop :=
  field.Sublist bytes ∨ field.count dollar < bytes.count dollar

theorem Reduced.weight_le {field bytes : List UInt8} (h : Reduced field bytes)
    (hsize : field.length ≤ fieldSize) : weight field ≤ weight bytes :=
  h.elim Shell.weight_le fun hcount => le_of_lt (weight_lt hsize hcount)

theorem Reduced.trans {field bytes : List UInt8} (h : Reduced as field) (h' : Reduced field bytes) :
    Reduced as bytes := by
  rcases h with hsub | hcount
  · exact h'.imp hsub.trans fun hcount => lt_of_le_of_lt (hsub.count_le _) hcount
  · refine Or.inr (lt_of_lt_of_le hcount ?_)
    exact h'.elim (fun hsub => hsub.count_le _) le_of_lt

theorem Reduced.append_right {field bytes : List UInt8} (h : Reduced field bytes)
    (rest : List UInt8) : Reduced (field ++ rest) (bytes ++ rest) := by
  refine h.imp (fun hsub => hsub.append (List.Sublist.refl _)) fun hcount => ?_
  rw [count_append, count_append]
  exact Nat.add_lt_add_right hcount _

theorem expandSegment_reduced (hclear : Clear environment) (segment : Segment)
    (field : List UInt8) :
    Reduced (expandSegment environment segment field) (field ++ segment.bytes) := by
  refine Reduced.trans (Or.inl (take_sublist _ _)) ?_
  cases href : hasReference segment.bytes with
  | false =>
    rw [expandBytes_plain href]
    exact Or.inl (List.Sublist.refl _)
  | true =>
    refine Or.inr ?_
    rw [count_append, count_append]
    exact Nat.add_lt_add_left (count_expandBytes_lt hclear href) _

theorem expandSegments_reduced (hclear : Clear environment) (segments : List Segment)
    (field : List UInt8) (produced : Bool) (hsize : field.length ≤ fieldSize) :
    (expandSegments environment segments (field, produced)).1.length ≤ fieldSize ∧
      Reduced (expandSegments environment segments (field, produced)).1
        (field ++ text segments) := by
  induction segments generalizing field produced with
  | nil => exact ⟨hsize, Or.inl (sublist_append_left _ _)⟩
  | cons segment segments ih =>
    have htext : field ++ text (segment :: segments) = field ++ segment.bytes ++ text segments := by
      simp [text]
    rw [expandSegments, htext]
    split
    · obtain ⟨hlen, hreduced⟩ := ih (expandSegment environment segment field) true
        (length_take_le ..)
      exact ⟨hlen, hreduced.trans ((expandSegment_reduced hclear segment field).append_right _)⟩
    · split
      · rw [append_assoc]
        exact ⟨hsize, Or.inl (sublist_append_left _ _)⟩
      · rename_i hfit
        exact ih (field ++ segment.bytes) true (by rw [length_append]; omega)

theorem foldl_pushField (input fields : List (List UInt8)) :
    (input.foldl pushField fields).Sublist (fields ++ input) := by
  induction input generalizing fields with
  | nil => rw [append_nil]; exact List.Sublist.refl _
  | cons field input ih =>
    refine (ih (pushField fields field)).trans ?_
    rw [pushField]
    split
    · exact (List.Sublist.refl _).append (sublist_cons_self _ _)
    · rw [append_assoc, singleton_append]

theorem splitFields_sublist (bytes : List UInt8) :
    (splitFields bytes).Sublist (bytes.splitOnP isWhitespace) :=
  (foldl_pushField _ []).trans filter_sublist

theorem not_isWhitespace_of_mem {field bytes : List UInt8} (h : field ∈ splitFields bytes) :
    ∀ b ∈ field, isWhitespace b = false :=
  not_of_mem_splitOnP bytes field ((splitFields_sublist bytes).subset h)

theorem cost_splitOnP (bytes : List UInt8) :
    cost (bytes.splitOnP isWhitespace) = weight bytes + 1 := by
  induction bytes using separator_induction isWhitespace with
  | hnone bytes h => rw [splitOnP_eq_singleton h]; rfl
  | hsome v b rest hv hb ih =>
    have hspace : weight (b :: rest) = weight rest + 1 := by
      have hdollar : ¬ b = dollar := by rintro rfl; cases hb
      rw [weight, weight, length_cons, count_cons_of_ne hdollar]
      omega
    rw [splitOnP_append_cons_of_forall_mem hv b hb, cost_cons, ih, weight_append, hspace]
    omega

/-- **Fields cost no more than their word weighs.** -/
theorem cost_expand (hclear : Clear environment) (word : Word) :
    cost (expand environment word) ≤
      weight (expandSegments environment word.segments ([], false)).1 + 1 := by
  rw [expand]
  dsimp only
  split
  · exact zero_le _
  · split
    · exact le_trans (cost_le (splitFields_sublist _)) (le_of_eq (cost_splitOnP _))
    · have hsize := (expandSegments_reduced hclear word.segments [] false (zero_le _)).1
      rw [pushField, if_neg (by simp [maxFields, not_lt.mpr hsize])]
      exact le_refl _

theorem weight_expandSegments (hclear : Clear environment) (segments : List Segment) :
    weight (expandSegments environment segments ([], false)).1 ≤ weight (text segments) := by
  obtain ⟨hsize, hreduced⟩ := expandSegments_reduced hclear segments [] false (zero_le _)
  exact hreduced.weight_le hsize

theorem hasReference_of_not_mem {bytes : List UInt8} (h : dollar ∉ bytes) :
    hasReference bytes = false := by
  induction bytes with
  | nil => rfl
  | cons b bytes ih =>
    rw [mem_cons, not_or] at h
    rw [hasReference, ih h.2, beq_false_of_ne (Ne.symm h.1)]
    rfl

/-- **A run that weighs what it costs** is its own field, without references. -/
theorem Segment.IsRun.field (hclear : Clear environment) (hrun : segment.IsRun)
    (h : weight segment.bytes ≤ weight (expandSegments environment [segment] ([], false)).1) :
    hasReference segment.bytes = false ∧
      (expandSegments environment [segment] ([], false)).1 = segment.bytes := by
  cases hcopies : segment.copiesVariable with
  | false =>
    have hdollar : dollar ∉ segment.bytes := fun hmem => by
      rw [hrun.copies, contains_iff_mem.mpr hmem] at hcopies
      cases hcopies
    refine ⟨hasReference_of_not_mem hdollar, eq_of_weight ?_ h⟩
    rw [expandSegments, hcopies, if_neg Bool.false_ne_true]
    split
    · exact nil_sublist _
    · exact List.Sublist.refl _
  | true =>
    rw [expandSegments, hcopies, if_pos rfl] at h ⊢
    change weight segment.bytes ≤ weight (expandSegment environment segment []) at h
    change _ ∧ expandSegment environment segment [] = segment.bytes
    rw [expandSegment, nil_append] at h ⊢
    have href : hasReference segment.bytes = false := by
      refine Bool.eq_false_iff.mpr fun href => absurd h (not_le.mpr ?_)
      refine weight_lt (length_take_le ..) ?_
      exact lt_of_le_of_lt ((take_sublist _ _).count_le _)
        (count_expandBytes_lt hclear href)
    rw [expandBytes_plain href] at h ⊢
    exact ⟨href, eq_of_weight (take_sublist _ _) h⟩

/-! ### What comes back -/

theorem cost_flatMap_expand (hclear : Clear environment) (list : List Word) :
    cost (list.flatMap (expand environment)) ≤ cost (list.map fun word => text word.segments) ∧
      (cost (list.map fun word => text word.segments) ≤ cost (list.flatMap (expand environment)) →
        ∀ word ∈ list, weight (text word.segments) ≤
          weight (expandSegments environment word.segments ([], false)).1) := by
  induction list with
  | nil => exact ⟨le_refl _, fun _ word h => absurd h not_mem_nil⟩
  | cons word list ih =>
    have hfields := cost_expand hclear word
    have hword := weight_expandSegments hclear word.segments
    rw [flatMap_cons, map_cons, cost_append, cost_cons]
    refine ⟨by omega, fun h => forall_mem_cons.mpr ⟨by omega, ih.2 (by omega)⟩⟩

theorem mem_joined {b : UInt8} (h : b ∈ joined words) : b = 32 ∨ ∃ word ∈ words, b ∈ word := by
  cases words with
  | nil => exact absurd h not_mem_nil
  | cons word words =>
    rcases mem_append.mp h with h | h
    · exact Or.inr ⟨word, mem_cons_self, h⟩
    · obtain ⟨word', hword', h⟩ := mem_flatMap.mp h
      exact (mem_cons.mp h).imp_right fun h => ⟨word', mem_cons_of_mem _ hword', h⟩

theorem texts_words (list : List Word) (tokens : List Token) :
    texts (list.map .word ++ tokens) = (list.map fun word => text word.segments) ++
      texts tokens := by
  induction list with
  | nil => rfl
  | cons word list ih => exact congrArg (text word.segments :: ·) ih

/-- **Words that come back are plain.** -/
theorem plain_of_fields (hclear : Clear environment) (hne : words ≠ []) {list : List Word}
    {after : List Token} (htokens : Tokens (joinArguments words) (list.map .word ++ after))
    (hfields : list.flatMap (expand environment) = words) : Plain words := by
  -- All that is between the words and their fields costs the same.
  have hjoined := weight_joined hne
  have hline : (joinArguments words).Sublist (joined words) := by
    rw [joinArguments_eq]
    exact take_sublist _ _
  obtain ⟨hcost, hruns⟩ := htokens.cost
  obtain ⟨hcost', hweights⟩ := cost_flatMap_expand hclear list
  rw [texts_words, cost_append] at hcost hruns
  rw [hfields] at hcost' hweights
  have hbound := bound_le (joinArguments words)
  have hle := weight_le hline
  have heq : joinArguments words = joined words := eq_of_weight hline (by omega)
  specialize hweights (by omega)
  have hrun : ∀ word ∈ list, word.IsRun := fun word hword =>
    hruns (by omega) word (mem_append_left _ (mem_map_of_mem hword))
  -- Every word of the command has the text of one run for its field.
  have hread : ∀ word ∈ list, ∃ segment : Segment, segment.IsRun ∧
      text word.segments = segment.bytes ∧ hasReference segment.bytes = false ∧
      ∀ field ∈ expand environment word, field ∈ splitFields segment.bytes := by
    intro word hword
    obtain ⟨segment, hsegment, hIsRun⟩ := (hrun word hword).single
    have htext : text word.segments = segment.bytes := by rw [hsegment, text]; simp
    have hweight := hweights word hword
    rw [htext, hsegment] at hweight
    obtain ⟨href, hfield⟩ := hIsRun.field hclear hweight
    refine ⟨segment, hIsRun, htext, href, fun field h => ?_⟩
    rw [expand, hsegment] at h
    simp only [hfield, any_cons, hIsRun.unquoted, decide_true, Bool.true_or, if_true] at h
    split at h
    · exact absurd h not_mem_nil
    · exact h
  have hspace : ∀ word ∈ words, ∀ b ∈ word, isWhitespace b = false := by
    intro word hword
    rw [← hfields] at hword
    obtain ⟨source, hsource, hword⟩ := mem_flatMap.mp hword
    obtain ⟨segment, -, -, -, hsplit⟩ := hread source hsource
    exact not_isWhitespace_of_mem (hsplit word hword)
  refine ⟨by rw [← heq, joinArguments_eq]; exact length_take_le .., fun word hword => ?_⟩
  rw [← hfields] at hword
  obtain ⟨source, hsource, hword⟩ := mem_flatMap.mp hword
  obtain ⟨segment, hIsRun, htext, href, hsplit⟩ := hread source hsource
  -- The bytes of the run are bytes of the line, and none of them is one of its spaces.
  have hbare : ∀ b ∈ segment.bytes, isWhitespace b = false := by
    intro b hb
    have hmem : b ∈ joined words := heq ▸
      htokens.mem (mem_append_left _ (mem_map_of_mem hsource)) b (htext ▸ hb)
    rcases mem_joined hmem with rfl | ⟨word, hword, hb⟩
    · exact absurd (hIsRun.inner _ hb) (by decide)
    · exact hspace word hword b hb
  obtain rfl : word = segment.bytes := by
    have hmem := (splitFields_sublist _).subset (hsplit word hword)
    rwa [splitOnP_eq_singleton hbare, mem_singleton] at hmem
  refine ⟨hIsRun.ne_nil, fun b hb => ?_, htext ▸ (hrun source hsource).not_comment, href⟩
  rw [isBare, hIsRun.inner b hb, hbare b hb]
  rfl

/-! ### Builtin stages -/

theorem runBuiltinStage_ok {arguments : Arguments} {entries : List Entry}
    (h : runBuiltinStage arguments = .ok entries) : entries = [] ∨
      ∃ tokens, tokenize (joinArguments arguments.words) = .ok tokens ∧
        parseList tokens = .ok entries := by
  unfold runBuiltinStage at h
  dsimp only at h
  split at h
  · cases h
  · split at h
    · cases h
    · split at h
      · cases h
        exact Or.inl rfl
      · split at h
        · cases h
        · rename_i tokens htokens
          split at h
          · cases h
          · rename_i entries' hentries
            cases h
            exact Or.inr ⟨tokens, htokens, hentries⟩

theorem clear_new : Clear .new := by
  have hvalues : ∀ v ∈ Environment.new.active, dollar ∉ v.value := by decide +kernel
  intro name value hget
  obtain ⟨v, hfind, rfl⟩ := Option.map_eq_some_iff.mp hget
  exact hvalues v (mem_of_find?_eq_some hfind)

/-- **Builtin stages.** Whatever the variables of the other shell, a builtin stage reports an error
or runs there with the words it had, if and only if it reports an error or its words are plain. -/
theorem faithful_iff (arguments : Arguments)
    (h : ∃ name ∈ arguments.words.head?, isBuiltinName name) :
    (∀ identity, Faithful (initialiseFromIdentity .new identity) arguments) ↔
      (∃ error, runBuiltinStage arguments = .error error) ∨ Plain arguments.words := by
  have hne : arguments.words ≠ [] := by
    rintro hnil
    obtain ⟨name, hname, -⟩ := h
    rw [hnil] at hname
    cases hname
  constructor
  · intro hfaithful
    refine (hfaithful none).imp_right ?_
    rintro ⟨entries, hentries, command, connector, rfl, hin, hout, hfields⟩
    obtain ⟨tokens, htokens, hparse⟩ := (runBuiltinStage_ok hentries).resolve_left (by simp)
    obtain ⟨after, rfl⟩ := parseList_simple hparse hin hout
    exact plain_of_fields clear_new hne (tokenizeLoop_tokens htokens) hfields
  · exact fun h identity => h.elim Or.inl (faithful_of_plain hne)

/-- `echo hi` -/
def plainArguments : Arguments := ⟨[[101, 99, 104, 111], [104, 105]], by decide, by decide⟩

theorem faithful_iff_sample : (∀ identity,
    Faithful (initialiseFromIdentity .new identity) plainArguments) ↔
      (∃ error, runBuiltinStage plainArguments = .error error) ∨ Plain plainArguments.words :=
  faithful_iff plainArguments ⟨_, rfl, by decide⟩

/-- `echo 'a;b'`: the other shell runs `echo a`, and then `b`. -/
theorem quoted_semicolon : ¬ ∀ (identity : Option Identity) (arguments : Arguments),
    (∃ name ∈ arguments.words.head?, isBuiltinName name) →
      Faithful (initialiseFromIdentity .new identity) arguments := by
  intro h
  let arguments : Arguments := ⟨[[101, 99, 104, 111], [97, 59, 98]], by decide, by decide⟩
  have hrun : (runBuiltinStage arguments).map List.length = .ok 2 := by decide +kernel
  rcases h none arguments ⟨_, rfl, by decide⟩ with ⟨error, herror⟩ | ⟨entries, hentries, hruns⟩
  · rw [herror] at hrun
    cases hrun
  · obtain ⟨command, connector, rfl, -⟩ := hruns
    rw [hentries] at hrun
    exact absurd (Except.ok.inj hrun) (by simp)

end ImagineOS.Shell
