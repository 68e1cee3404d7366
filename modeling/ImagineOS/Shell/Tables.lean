import ImagineOS.Checked
import ImagineOS.Shell.Parser

/-!
# Shell: the tables of the parser

The parser fills tables of fixed size, each with a number of entries that are in use: words in a
command, commands in a pipeline, pipelines in a list. An index that was not set back, or was not
compared with the size of its table, would put an entry into the wrong place, or would panic.
-/

namespace ImagineOS.Shell

namespace Tables

open Checked

variable {α : Type} {n : ℕ}

/-- `table[i] = a` -/
def setSlot (table : Vector α n) (i : ℕ) (a : α) : Checked ParseError (Vector α n) :=
  if h : i < n then .ok (table.set i a) else panic

/-- The slots in use. -/
def used (table : Vector α n) (count : ℕ) : List α := table.toList.take count

theorem setSlot_used {i : ℕ} (h : i < n) (table : Vector α n) (a : α) :
    ∃ table', setSlot table i a = .ok table' ∧ used table' (i + 1) = used table i ++ [a] := by
  refine ⟨table.set i a, dif_pos h, ?_⟩
  have hlength : i < table.toList.length := by rwa [Vector.length_toList]
  rw [used, used, Vector.toList_set, List.take_add_one, List.take_set_of_le le_rfl,
    List.getElem?_set_self hlength]
  rfl

theorem length_used {count : ℕ} (h : count ≤ n) (table : Vector α n) :
    (used table count).length = count := by
  rw [used, List.length_take, Vector.length_toList, Nat.min_eq_left h]

/-! ### Commands -/

/-- `Command` -/
structure CommandTable where
  words : Vector Word maxWords
  wordCount : ℕ
  stdin : Option Word
  stdout : Option Word
  append : Bool

/-- `Command::EMPTY` -/
def CommandTable.empty : CommandTable :=
  ⟨Vector.replicate maxWords ⟨[]⟩, 0, none, none, false⟩

/-- What is in use of a command. -/
def CommandTable.command (c : CommandTable) : Command :=
  ⟨used c.words c.wordCount, c.stdin, c.stdout, c.append⟩

/-- What `parse_command` does when no token of the command is left. -/
def finishCommand (command : CommandTable) (pending : RedirectSlot) (tokens : List Token) :
    Checked ParseError (CommandTable × List Token) :=
  if pending ≠ .none then fail .missingRedirectionTarget
  else if command.wordCount = 0 then fail .unexpectedOperator
  else .ok (command, tokens)

/-- The loop of `parse_command`. -/
def parseCommandLoop : List Token → CommandTable → RedirectSlot →
    Checked ParseError (CommandTable × List Token)
  | [], command, pending => finishCommand command pending []
  | .word word :: rest, command, .in_ =>
    parseCommandLoop rest { command with stdin := some word } .none
  | .word word :: rest, command, .out =>
    parseCommandLoop rest { command with stdout := some word } .none
  | .word word :: rest, command, .none =>
    if command.wordCount = maxWords then fail .tooManyWords
    else do
      let words ← setSlot command.words command.wordCount word
      parseCommandLoop rest { command with words, wordCount := command.wordCount + 1 } .none
  | .operator .redirectIn :: rest, command, pending =>
    if pending ≠ .none then fail .missingRedirectionTarget
    else parseCommandLoop rest { command with stdin := none } .in_
  | .operator .redirectOut :: rest, command, pending =>
    if pending ≠ .none then fail .missingRedirectionTarget
    else parseCommandLoop rest { command with stdout := none, append := false } .out
  | .operator .redirectAppend :: rest, command, pending =>
    if pending ≠ .none then fail .missingRedirectionTarget
    else parseCommandLoop rest { command with stdout := none, append := true } .out
  | .operator operator :: rest, command, pending =>
    finishCommand command pending (.operator operator :: rest)

def parseCommand (tokens : List Token) : Checked ParseError (CommandTable × List Token) :=
  parseCommandLoop tokens .empty .none

/-- The same command, and the same tokens are left. -/
def SameCommand (a : CommandTable × List Token) (b : Command × List Token) : Prop :=
  a.1.command = b.1 ∧ a.2 = b.2

theorem finishCommand_agrees {c : CommandTable} (hc : c.wordCount ≤ maxWords)
    (pending : RedirectSlot) (tokens : List Token) :
    (finishCommand c pending tokens).Agrees (Shell.finishCommand c.command pending tokens)
      SameCommand := by
  have hlength : c.command.words.length = c.wordCount := length_used hc c.words
  rw [finishCommand, Shell.finishCommand, hlength]
  exact .ite (fun _ => rfl) fun _ => .ite (fun _ => rfl) fun _ => ⟨rfl, rfl⟩

theorem parseCommandLoop_agrees (tokens : List Token) {c : CommandTable}
    (hc : c.wordCount ≤ maxWords) (pending : RedirectSlot) :
    (parseCommandLoop tokens c pending).Agrees (Shell.parseCommandLoop tokens c.command pending)
      SameCommand := by
  induction tokens generalizing c pending with
  | nil => exact finishCommand_agrees hc pending []
  | cons t rest ih =>
    cases t with
    | word word =>
      cases pending with
      | in_ => exact @ih { c with stdin := some word } hc .none
      | out => exact @ih { c with stdout := some word } hc .none
      | none =>
        have hlength : c.command.words.length = c.wordCount := length_used hc c.words
        rw [parseCommandLoop, Shell.parseCommandLoop, hlength]
        refine .ite (fun _ => rfl) fun hfull => ?_
        have hlt : c.wordCount < maxWords := Nat.lt_of_le_of_ne hc hfull
        obtain ⟨words, hset, hused⟩ := setSlot_used hlt c.words word
        have hnext := @ih { c with words, wordCount := c.wordCount + 1 } hlt .none
        rw [CommandTable.command, hused] at hnext
        rw [hset]
        exact hnext
    | operator operator =>
      cases operator with
      | redirectIn => exact .ite (fun _ => rfl) fun _ => @ih { c with stdin := none } hc .in_
      | redirectOut =>
        exact .ite (fun _ => rfl) fun _ => @ih { c with stdout := none, append := false } hc .out
      | redirectAppend =>
        exact .ite (fun _ => rfl) fun _ => @ih { c with stdout := none, append := true } hc .out
      | pipe | and | or | semicolon | background => exact finishCommand_agrees hc pending _

/-- **A command** in its table. -/
theorem parseCommand_agrees (tokens : List Token) :
    (parseCommand tokens).Agrees (Shell.parseCommand tokens) SameCommand :=
  @parseCommandLoop_agrees tokens .empty (Nat.zero_le _) .none

/-! ### Pipelines -/

/-- `Pipeline` -/
structure PipelineTable where
  commands : Vector CommandTable maxPipeline
  commandCount : ℕ

/-- `Pipeline::EMPTY` -/
def PipelineTable.empty : PipelineTable := ⟨Vector.replicate maxPipeline .empty, 0⟩

/-- What is in use of a pipeline. -/
def PipelineTable.pipeline (p : PipelineTable) : Pipeline :=
  ⟨(used p.commands p.commandCount).map CommandTable.command⟩

/-- The loop of `parse_pipeline`, with a bound for the number of its rounds. -/
def parseStages : ℕ → PipelineTable → List Token → Checked ParseError (PipelineTable × List Token)
  | 0, _, _ => panic
  | rounds + 1, pipeline, tokens =>
    if tokens.isEmpty then fail .unexpectedOperator
    else if pipeline.commandCount = maxPipeline then fail .pipelineTooLong
    else do
      let (command, next) ← parseCommand tokens
      let commands ← setSlot pipeline.commands pipeline.commandCount command
      let pipeline := ⟨commands, pipeline.commandCount + 1⟩
      match next with
      | .operator .pipe :: next => parseStages rounds pipeline next
      | next => .ok (pipeline, next)

/-- The operator after a pipeline, and the tokens after it. -/
def parseConnector (tokens : List Token) : Checked ParseError (List Token × Connector) :=
  match tokens with
  | [] => .ok ([], .end_)
  | .operator .semicolon :: rest => .ok (rest, .always)
  | .operator .and :: rest => .ok (rest, .onSuccess)
  | .operator .or :: rest => .ok (rest, .onFailure)
  | .operator .background :: rest => .ok (rest, .background)
  | _ => fail .unexpectedOperator

def parsePipeline (tokens : List Token) :
    Checked ParseError (PipelineTable × List Token × Connector) := do
  let (pipeline, next) ← parseStages (maxPipeline + 1) .empty tokens
  let (next, connector) ← parseConnector next
  return (pipeline, next, connector)

/-- The same pipeline, and the same tokens are left. -/
def SamePipeline (a : PipelineTable × List Token) (b : Pipeline × List Token) : Prop :=
  a.1.pipeline = b.1 ∧ a.2 = b.2

theorem parseStages_agrees (room : ℕ) {p : PipelineTable} (hp : p.commandCount + room = maxPipeline)
    (tokens : List Token) :
    (parseStages (room + 1) p tokens).Agrees
      (Shell.parseStages room p.pipeline.commands tokens) SamePipeline := by
  induction room generalizing p tokens with
  | zero =>
    cases tokens with
    | nil => rfl
    | cons t rest =>
      rw [parseStages, if_neg (by simp), if_pos (by omega)]
      rfl
  | succ room ih =>
    cases tokens with
    | nil => rfl
    | cons t rest =>
      rw [parseStages, if_neg (by simp), if_neg (by omega), Shell.parseStages]
      swap
      · simp
      refine (parseCommand_agrees (t :: rest)).bind ?_
      rintro ⟨command, next⟩ ⟨command', next'⟩ ⟨hcommand, hnext⟩
      dsimp only at hcommand hnext
      subst hcommand hnext
      obtain ⟨commands, hset, hused⟩ :=
        setSlot_used (show p.commandCount < maxPipeline by omega) p.commands command
      have hpipeline : PipelineTable.pipeline ⟨commands, p.commandCount + 1⟩ =
          ⟨p.pipeline.commands ++ [command.command]⟩ := by
        rw [PipelineTable.pipeline, hused, List.map_append]
        rfl
      dsimp only
      rw [hset, ok_bind]
      have hrest := fun next =>
        @ih ⟨commands, p.commandCount + 1⟩ (show p.commandCount + 1 + room = _ by omega) next
      rw [hpipeline] at hrest
      rcases next with _ | ⟨_ | o, next⟩
      · exact ⟨hpipeline, rfl⟩
      · exact ⟨hpipeline, rfl⟩
      · cases o with
        | pipe => exact hrest next
        | _ => exact ⟨hpipeline, rfl⟩

theorem parseConnector_agrees (tokens : List Token) :
    (parseConnector tokens).Agrees (Shell.parseConnector tokens) Eq := by
  cases tokens with
  | nil => rfl
  | cons t rest =>
    cases t with
    | word => rfl
    | operator operator => cases operator <;> rfl

/-- **A pipeline** in its table. -/
theorem parsePipeline_agrees (tokens : List Token) :
    (parsePipeline tokens).Agrees (Shell.parsePipeline tokens)
      fun a b => a.1.pipeline = b.1 ∧ a.2 = b.2 := by
  refine (@parseStages_agrees maxPipeline .empty rfl tokens).bind ?_
  rintro ⟨pipeline, next⟩ ⟨pipeline', next'⟩ ⟨hpipeline, hnext⟩
  dsimp only at hpipeline hnext
  subst hpipeline hnext
  refine (parseConnector_agrees next).bind ?_
  rintro ⟨next, connector⟩ _ rfl
  exact ⟨rfl, rfl⟩

/-! ### Lists -/

/-- `Entry` -/
structure EntryTable where
  pipeline : PipelineTable
  connector : Connector

/-- What is in use of an entry. -/
def EntryTable.entry (e : EntryTable) : Entry := ⟨e.pipeline.pipeline, e.connector⟩

/-- The entries in use. -/
def usedEntries (entries : Vector EntryTable maxEntries) (count : ℕ) : List Entry :=
  (used entries count).map EntryTable.entry

/-- The loop of `parse_list`, with a bound for the number of its rounds. -/
def parseEntries : ℕ → ℕ → Vector EntryTable maxEntries → List Token →
    Checked ParseError (ℕ × Vector EntryTable maxEntries)
  | 0, _, _, _ => panic
  | rounds + 1, entryCount, entries, tokens =>
    if tokens.isEmpty then .ok (entryCount, entries)
    else if entryCount = maxEntries then fail .pipelineTooLong
    else do
      let (pipeline, next, connector) ← parsePipeline tokens
      let entries ← setSlot entries entryCount ⟨pipeline, connector⟩
      if connector = .end_ then .ok (entryCount + 1, entries)
      else parseEntries rounds (entryCount + 1) entries next

/-- `parse_list`: the number of entries in use, and the table. -/
def parseList (tokens : List Token) (entries : Vector EntryTable maxEntries) :
    Checked ParseError (ℕ × Vector EntryTable maxEntries) :=
  parseEntries (maxEntries + 1) 0 entries tokens

theorem parseEntries_agrees (room : ℕ) {count : ℕ} (hcount : count + room = maxEntries)
    (entries : Vector EntryTable maxEntries) (tokens : List Token) :
    (parseEntries (room + 1) count entries tokens).Agrees (Shell.parseEntries room tokens)
      fun a es => usedEntries a.2 a.1 = usedEntries entries count ++ es := by
  induction room generalizing count entries tokens with
  | zero =>
    cases tokens with
    | nil => exact (List.append_nil _).symm
    | cons t rest =>
      rw [parseEntries, if_neg (by simp), if_pos (by omega)]
      rfl
  | succ room ih =>
    cases tokens with
    | nil => exact (List.append_nil _).symm
    | cons t rest =>
      rw [parseEntries, if_neg (by simp), if_neg (by omega), Shell.parseEntries]
      swap
      · simp
      refine (parsePipeline_agrees (t :: rest)).bind ?_
      rintro ⟨pipeline, next, connector⟩ ⟨pipeline', next', connector'⟩ ⟨hpipeline, hnext⟩
      dsimp only at hpipeline hnext
      obtain ⟨rfl, rfl⟩ := Prod.mk.inj hnext
      subst hpipeline
      obtain ⟨entries', hset, hused⟩ :=
        setSlot_used (show count < maxEntries by omega) entries ⟨pipeline, connector⟩
      have hentries : usedEntries entries' (count + 1) =
          usedEntries entries count ++ [⟨pipeline.pipeline, connector⟩] := by
        rw [usedEntries, hused, List.map_append]
        rfl
      dsimp only
      rw [hset, ok_bind]
      refine .ite (fun _ => hentries) fun _ => ?_
      have hrest := @ih (count + 1) (by omega) entries' next
      rw [← bind_pure (parseEntries _ _ _ _)]
      refine hrest.bind fun a es hes => ?_
      rw [hentries, List.append_assoc] at hes
      exact hes

/-- **A list** in its table. -/
theorem parseList_agrees (tokens : List Token) (entries : Vector EntryTable maxEntries) :
    (parseList tokens entries).Agrees (Shell.parseList tokens)
      fun a es => usedEntries a.2 a.1 = es :=
  parseEntries_agrees maxEntries (Nat.zero_add _) entries tokens

end Tables

end ImagineOS.Shell
