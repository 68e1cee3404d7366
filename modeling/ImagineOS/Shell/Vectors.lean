import ImagineOS.Shell.FullFields
import ImagineOS.Shell.Special

/-!
# Shell: argument vectors

A program gets the fields that are left in the tables of `execve_stage`. A builtin of the shell has
them from another place: it expands the words after the first one itself, and not all builtins take
all fields. What else the first word was expanded to is lost. A builtin that is a stage of a
pipeline gets what another shell reads.
-/

namespace ImagineOS.Shell

/-! ### Programs -/

/-- `PATH` -/
def pathName : List UInt8 := [80, 65, 84, 72]

/-- `resolve_command`; `isFile` is the answer of `fs::is_file`, where an error is no file. -/
def resolveCommand (isFile : Str → Bool) (s : ExecutorState) (name : List UInt8) :
    Option (List UInt8) :=
  if name.contains slash then
    (resolve s.cwd name).bind fun resolved =>
      (fromUtf8 resolved).bind fun path => if isFile path then some resolved else none
  else
    (((s.table.get pathName).getD []).take valueSize).splitOn 58 |>.findSome? fun directory =>
      let directory := if directory = [] then s.cwd else directory
      if directory.length ≥ maxPath then none
      else
        let candidate := withSlash directory ++ name
        if candidate.length > maxPath then none
        else (fromUtf8 candidate).bind fun text => if isFile text then some candidate else none

/-- Why `execve_stage` exits. -/
inductive StageFailure
  /-- `shell: comando vazio`, with the status 2 -/
  | empty
  /-- No message, with the status 2 -/
  | encoding
  /-- `shell: nao foi possivel executar o builtin`, with the status 126 -/
  | cannotExecuteBuiltin
  /-- `shell: comando nao encontrado`, with the status 127 -/
  | notFound
  /-- `shell: falha ao executar o comando`, with the status 126 -/
  | cannotExecute
  deriving DecidableEq

/-- What a stage becomes. -/
inductive Execution
  | program (path : Str) (argv : List Str)
  /-- `/bin/shell -c` -/
  | shell (line : Str)
  deriving DecidableEq

/-- `/bin/shell` -/
def shellPath : Str := ⟨[47, 98, 105, 110, 47, 115, 104, 101, 108, 108], rfl⟩

/-- `-c` -/
def commandFlag : Str := ⟨[45, 99], rfl⟩

/-- `execve_stage`; `loads` says whether `process::execve` replaces the image. -/
def execveStage (isFile : Str → Bool) (loads : Str → List Str → List Str → Bool)
    (s : ExecutorState) (command : Command) : Except StageFailure Execution :=
  let words := (stageArguments s.table.toEnvironment command).words
  match words with
  | [] => .error .empty
  | name :: _ =>
    if isBuiltinName name then
      match fromUtf8 (joinArguments words) with
      | none => .error .encoding
      | some line =>
        if loads shellPath [shellPath, commandFlag, line] s.table.texts then .ok (.shell line)
        else .error .cannotExecuteBuiltin
    else
      match words.mapM fromUtf8 with
      | none => .error .encoding
      | some argv =>
        match resolveCommand isFile s name with
        | none => .error .notFound
        | some path =>
          match fromUtf8 path with
          | none => .error .encoding
          | some path =>
            if loads path argv s.table.texts then .ok (.program path argv)
            else .error .cannotExecute

theorem map_of_mapM_fromUtf8 {words : List (List UInt8)} {argv : List Str}
    (h : words.mapM fromUtf8 = some argv) : argv.map Subtype.val = words := by
  induction words generalizing argv with
  | nil =>
    obtain rfl := Option.some.inj h
    rfl
  | cons word words ih =>
    rw [List.mapM_cons, Option.bind_eq_bind, Option.bind_eq_some_iff] at h
    obtain ⟨text, htext, h⟩ := h
    obtain ⟨texts, htexts, h⟩ := Option.bind_eq_some_iff.mp h
    obtain rfl := Option.some.inj h
    have hval : text.1 = word := by
      rw [fromUtf8] at htext
      split at htext
      · exact congrArg Subtype.val (Option.some.inj htext).symm
      · cases htext
    rw [List.map_cons, hval, ih htexts]

variable {isFile : Str → Bool} {loads : Str → List Str → List Str → Bool} {s : ExecutorState}
variable {command : Command} {path : Str} {argv : List Str}

theorem argv_of_execveStage (h : execveStage isFile loads s command = .ok (.program path argv)) :
    argv.map Subtype.val = (stageArguments s.table.toEnvironment command).words := by
  unfold execveStage at h
  dsimp only at h
  split at h
  · cases h
  · split at h
    · split at h
      · cases h
      · split at h <;> cases h
    · split at h
      · cases h
      · rename_i hargv
        split at h
        · cases h
        · split at h
          · cases h
          · split at h
            · cases h
              exact map_of_mapM_fromUtf8 hargv
            · cases h

/-- **Programs** get the vector if and only if it fits. -/
theorem argv_eq_iff (h : execveStage isFile loads s command = .ok (.program path argv)) :
    argv.map Subtype.val = fullVector s.table.toEnvironment command ↔
      VectorFits s.table.toEnvironment command := by
  rw [argv_of_execveStage h]
  exact stageArguments_eq_iff _ command

/-! ### Builtins of the shell -/

/-- A builtin looks at its arguments. -/
def Builtin.hasArguments : Builtin → Bool
  | .cd | .echo | .export_ | .unset => true
  | _ => false

variable {builtin : Builtin}

theorem call_of_not_hasArguments (h : builtin.hasArguments = false)
    (outside : Outside) (s : ExecutorState) (words words' : List Word) :
    s.call outside words builtin = s.call outside words' builtin := by
  cases builtin with
  | cd | echo | export_ | unset => cases h
  | pwd | set | exit | true_ | false_ | help => rfl

/-- What a builtin takes from a word. -/
def Builtin.takes (builtin : Builtin) (environment : Environment) (word : Word) :
    List (List UInt8) :=
  match builtin with
  | .echo | .export_ => expand environment word
  | .cd => (expand environment word).take 1
  | .unset => word.literalBytes.toList
  | _ => []

/-- The variables after a word: `export` sets them before it expands the next word. -/
def Builtin.after (builtin : Builtin) (t : Table) (word : Word) : Table :=
  match builtin with
  | .export_ => run ((expand t.toEnvironment word).map .exportField) t
  | _ => t

/-- Fields of the words of a builtin, for each word with the variables that it is expanded with. -/
def Builtin.collect (builtin : Builtin) (fields : Environment → Word → List (List UInt8)) :
    Table → List Word → List (List (List UInt8))
  | _, [] => []
  | t, word :: words =>
    fields t.toEnvironment word :: builtin.collect fields (builtin.after t word) words

/-- **What a builtin takes**, word by word. Of its first word it has the first field. -/
def takenFields (builtin : Builtin) (t : Table) (name : Word) (words : List Word) :
    List (List (List UInt8)) :=
  (expand t.toEnvironment name).take 1 :: builtin.collect builtin.takes t words

/-- What there is to take, word by word. -/
def givenFields (builtin : Builtin) (t : Table) (name : Word) (words : List Word) :
    List (List (List UInt8)) :=
  fullFields t.toEnvironment name :: builtin.collect fullFields t words

/-! ### What builtins lose -/

/-- A builtin loses nothing of a word. -/
def Builtin.Keeps (builtin : Builtin) (environment : Environment) (word : Word) : Prop :=
  match builtin with
  | .cd => Whole environment word ∧ (fullFields environment word).length ≤ 1
  | .unset =>
    match word.literalBytes with
    | some bytes => word.splits → bytes ≠ [] ∧ ∀ b ∈ bytes, isWhitespace b = false
    | none => fullFields environment word = []
  | _ => Whole environment word

/-- A builtin loses nothing of its words. -/
def Builtin.KeepsAll (builtin : Builtin) : Table → List Word → Prop
  | _, [] => True
  | t, word :: words =>
    builtin.Keeps t.toEnvironment word ∧ builtin.KeepsAll (builtin.after t word) words

/-- A builtin loses nothing: its first word has one field, and there is room for the others. -/
structure BuiltinFits (builtin : Builtin) (t : Table) (name : Word) (words : List Word) : Prop where
  name : Whole t.toEnvironment name ∧ (fullFields t.toEnvironment name).length ≤ 1
  words : builtin.KeepsAll t words

theorem take_one_expand_iff (environment : Environment) (word : Word) :
    (expand environment word).take 1 = fullFields environment word ↔
      Whole environment word ∧ (fullFields environment word).length ≤ 1 := by
  have h := @take_flatMap_eq_iff _ _ (expand environment) (fullFields environment) [word] 1
    fun word _ => length_expand_le environment word
  simpa [expand_eq_fullFields_iff] using h

theorem pieces_eq_singleton_iff {bytes : List UInt8} :
    pieces isWhitespace bytes = [bytes] ↔ bytes ≠ [] ∧ ∀ b ∈ bytes, isWhitespace b = false := by
  constructor
  · intro h
    have hmem : bytes ∈ pieces isWhitespace bytes := h ▸ List.mem_singleton_self bytes
    obtain ⟨hpiece, hne⟩ := List.mem_filter.mp hmem
    exact ⟨by simpa using hne, not_of_mem_splitOnP bytes bytes hpiece⟩
  · rintro ⟨hne, hbytes⟩
    rw [pieces_of_none hbytes, if_neg hne]

theorem literalBytes_eq_fullFields_iff (environment : Environment) (word : Word) :
    word.literalBytes.toList = fullFields environment word ↔
      Builtin.unset.Keeps environment word := by
  rw [Builtin.Keeps]
  cases hbytes : word.literalBytes with
  | none => exact eq_comm
  | some bytes =>
    -- The word is one literal segment.
    obtain ⟨segment, hsegments, hcopies, rfl⟩ : ∃ segment, word.segments = [segment] ∧
        segment.copiesVariable = false ∧ segment.bytes = bytes := by
      unfold Word.literalBytes at hbytes
      split at hbytes
      · rename_i segment hsegments
        split at hbytes
        · cases hbytes
        · rename_i hcopies
          exact ⟨segment, hsegments, by simpa using hcopies, Option.some.inj hbytes⟩
      · cases hbytes
    have htext : wordText environment word = segment.bytes := by
      simp [wordText, hsegments, segmentText, hcopies]
    cases hsplits : word.splits with
    | true =>
      rw [fullFields_of_splits hsplits, htext, Option.toList_some]
      exact eq_comm.trans (pieces_eq_singleton_iff.trans (by simp))
    | false =>
      rw [fullFields_of_quoted hsplits (by simp [hsegments]), htext]
      simp

theorem takes_eq_iff (h : builtin.hasArguments = true) (environment : Environment) (word : Word) :
    builtin.takes environment word = fullFields environment word ↔
      builtin.Keeps environment word := by
  cases builtin with
  | cd => exact take_one_expand_iff environment word
  | echo | export_ => exact expand_eq_fullFields_iff environment word
  | unset => exact literalBytes_eq_fullFields_iff environment word
  | pwd | set | exit | true_ | false_ | help => cases h

/-- **Builtins** take all fields of their words if and only if they lose none. -/
theorem takenFields_eq_iff (h : builtin.hasArguments = true) (t : Table)
    (name : Word) (words : List Word) :
    takenFields builtin t name words = givenFields builtin t name words ↔
      BuiltinFits builtin t name words := by
  have hwords : builtin.collect builtin.takes t words = builtin.collect fullFields t words ↔
      builtin.KeepsAll t words := by
    induction words generalizing t with
    | nil => exact iff_of_true rfl trivial
    | cons word words ih =>
      rw [Builtin.collect, Builtin.collect, List.cons.injEq, takes_eq_iff h, ih]
      rfl
  rw [takenFields, givenFields, List.cons.injEq, take_one_expand_iff, hwords]
  exact ⟨fun h => ⟨h.1, h.2⟩, fun h => ⟨h.name, h.words⟩⟩

/-! ### Builtins of another shell -/

/-- **A stage that is a builtin** reports an error, or another shell runs the vector, if and only if
it reports an error, or the vector fits and means nothing to a shell. -/
theorem runs_stage_iff {environment : Environment}
    (h : ∃ name ∈ (stageArguments environment command).words.head?, isBuiltinName name) :
    (∀ identity, (∃ error, runBuiltinStage (stageArguments environment command) = .error error) ∨
        ∃ entries, runBuiltinStage (stageArguments environment command) = .ok entries ∧
          Runs (initialiseFromIdentity .new identity) (fullVector environment command) entries) ↔
      (∃ error, runBuiltinStage (stageArguments environment command) = .error error) ∨
        VectorFits environment command ∧ Plain (fullVector environment command) := by
  have hne : (stageArguments environment command).words ≠ [] := by
    rintro hnil
    obtain ⟨name, hname, -⟩ := h
    rw [hnil] at hname
    cases hname
  rw [← stageArguments_eq_iff]
  constructor
  · intro hruns
    have hnew : initialiseFromIdentity .new none = Environment.new := rfl
    refine (hruns none).imp_right ?_
    rintro ⟨entries, hentries, other, connector, rfl, hin, hout, hfields⟩
    rw [hnew] at hfields
    obtain ⟨tokens, htokens, hparse⟩ := (runBuiltinStage_ok hentries).resolve_left (by simp)
    obtain ⟨after, rfl⟩ := parseList_simple hparse hin hout
    have hread := tokenizeLoop_tokens htokens
    -- The vector costs no more than its line weighs, and the line has what the stage kept.
    have hcost : cost (fullVector environment command) ≤
        cost (stageArguments environment command).words := by
      have hwords := (cost_flatMap_expand clear_new other.words).1
      have hline := hread.cost.1
      have hbound := bound_le (joinArguments (stageArguments environment command).words)
      have hcut : (joinArguments (stageArguments environment command).words).Sublist
          (joined (stageArguments environment command).words) := by
        rw [joinArguments_eq]
        exact List.take_sublist _ _
      have hweight := weight_le hcut
      have hjoined := weight_joined hne
      rw [texts_words, cost_append] at hline
      rw [hfields] at hwords
      omega
    have heq := stageArguments_eq_of_cost hcost
    rw [← heq] at hfields ⊢
    exact ⟨rfl, plain_of_fields clear_new hne hread hfields⟩
  · rintro (herror | ⟨heq, hplain⟩) identity
    · exact .inl herror
    · rw [← heq] at hplain ⊢
      exact faithful_of_plain hne hplain

/-! ### All commands -/

/-- **Argument vectors.** A program gets the vector of its command if and only if it fits the
tables. A builtin of the shell that does not report an error takes its fields if and only if it
loses none, or does the same with any arguments. A builtin that is a stage gets the vector in
another shell if and only if it fits, and means nothing to a shell. -/
theorem vector_complete_iff (s : ExecutorState) (command : Command) :
    (∀ isFile loads path argv, execveStage isFile loads s command = .ok (.program path argv) →
        (argv.map Subtype.val = fullVector s.table.toEnvironment command ↔
          VectorFits s.table.toEnvironment command)) ∧
    (∀ outside name words (builtin : Builtin), command.words = name :: words →
      (firstWord s.table command).bind Builtin.ofName = some builtin →
        if builtin.hasArguments then
          ((s.call outside words builtin).1 ≠ statusSuccess ∨
              takenFields builtin s.table name words = givenFields builtin s.table name words) ↔
            ((s.call outside words builtin).1 ≠ statusSuccess ∨
              BuiltinFits builtin s.table name words)
        else ∀ words', s.call outside words builtin = s.call outside words' builtin) ∧
    ∀ environment,
      (∃ name ∈ (stageArguments environment command).words.head?, isBuiltinName name) →
        ((∀ identity,
            (∃ error, runBuiltinStage (stageArguments environment command) = .error error) ∨
              ∃ entries, runBuiltinStage (stageArguments environment command) = .ok entries ∧
                Runs (initialiseFromIdentity .new identity) (fullVector environment command)
                  entries) ↔
          (∃ error, runBuiltinStage (stageArguments environment command) = .error error) ∨
            VectorFits environment command ∧ Plain (fullVector environment command)) := by
  refine ⟨fun isFile loads path argv => argv_eq_iff,
    fun outside name words builtin _ _ => ?_, fun environment => runs_stage_iff⟩
  split
  · rename_i harguments
    rw [takenFields_eq_iff harguments]
  · rename_i harguments
    exact call_of_not_hasArguments (by simpa using harguments) outside s words

/-- `export`, with a directory of 62 bytes. -/
def exportLong : Change := .exportField ([86, 61] ++ List.replicate 62 97)

/-- `rm /$V/x` -/
def rmLong : Command where
  words := [⟨[⟨[114, 109], .unquoted, false⟩]⟩, ⟨[⟨[47, 36, 86, 47, 120], .unquoted, true⟩]⟩]
  stdin := none
  stdout := none
  append := false

/-- With a directory of 62 bytes, `rm` gets the directory and not the file in it. -/
theorem rm_directory :
    ¬ ∀ isFile loads (s : ExecutorState) command path argv,
      execveStage isFile loads s command = .ok (.program path argv) →
        argv.map Subtype.val = fullVector s.table.toEnvironment command := by
  intro hclaim
  let s : ExecutorState := ⟨run [exportLong] .new, [slash], false, []⟩
  have hrun : execveStage (fun _ => true) (fun _ _ _ => true) s rmLong =
      .ok (.program ⟨[47, 98, 105, 110, 47, 114, 109], rfl⟩
        [⟨[114, 109], rfl⟩, ⟨[47] ++ List.replicate 62 97 ++ [47], by decide +kernel⟩]) := by
    decide +kernel
  exact absurd (hclaim _ _ s rmLong _ _ hrun) (by decide +kernel)

end ImagineOS.Shell
