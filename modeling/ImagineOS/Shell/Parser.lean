import ImagineOS.Shell.Lexer

/-!
# Shell: the parser

The parser makes a list of pipelines out of tokens, each with the operator that joins it to the next
one. The tables of the source are of fixed size: the room that is left in them is an argument of the
loops here.
-/

namespace ImagineOS.Shell

def maxPipeline : ℕ := 3

def maxWords : ℕ := 6

def maxEntries : ℕ := 6

structure Command where
  words : List Word
  stdin : Option Word
  stdout : Option Word
  append : Bool
  deriving DecidableEq

/-- `Command::EMPTY` -/
def Command.empty : Command := ⟨[], none, none, false⟩

structure Pipeline where
  commands : List Command
  deriving DecidableEq

inductive Connector
  | always
  | onSuccess
  | onFailure
  | background
  | end_
  deriving DecidableEq

structure Entry where
  pipeline : Pipeline
  connector : Connector
  deriving DecidableEq

inductive ParseError
  | unexpectedOperator
  | pipelineTooLong
  | tooManyWords
  | missingRedirectionTarget
  deriving DecidableEq

inductive RedirectSlot
  | none
  | in_
  | out
  deriving DecidableEq

/-- What `parse_command` does when no token of the command is left. -/
def finishCommand (command : Command) (pending : RedirectSlot) (tokens : List Token) :
    Except ParseError (Command × List Token) :=
  if pending ≠ .none then .error .missingRedirectionTarget
  else if command.words.length = 0 then .error .unexpectedOperator
  else .ok (command, tokens)

/-- The loop of `parse_command`. -/
def parseCommandLoop : List Token → Command → RedirectSlot →
    Except ParseError (Command × List Token)
  | [], command, pending => finishCommand command pending []
  | .word word :: rest, command, .in_ =>
      parseCommandLoop rest { command with stdin := some word } .none
  | .word word :: rest, command, .out =>
    parseCommandLoop rest { command with stdout := some word } .none
  | .word word :: rest, command, .none =>
    if command.words.length = maxWords then .error .tooManyWords
    else parseCommandLoop rest { command with words := command.words ++ [word] } .none
  | .operator .redirectIn :: rest, command, pending =>
    if pending ≠ .none then .error .missingRedirectionTarget
    else parseCommandLoop rest { command with stdin := none } .in_
  | .operator .redirectOut :: rest, command, pending =>
    if pending ≠ .none then .error .missingRedirectionTarget
    else parseCommandLoop rest { command with stdout := none, append := false } .out
  | .operator .redirectAppend :: rest, command, pending =>
    if pending ≠ .none then .error .missingRedirectionTarget
    else parseCommandLoop rest { command with stdout := none, append := true } .out
  | .operator operator :: rest, command, pending =>
    finishCommand command pending (.operator operator :: rest)

def parseCommand (tokens : List Token) : Except ParseError (Command × List Token) :=
  parseCommandLoop tokens .empty .none

/-- The loop of `parse_pipeline`, with the room that is left for commands. -/
def parseStages : ℕ → List Command → List Token → Except ParseError (Pipeline × List Token)
  | _, _, [] => .error .unexpectedOperator
  | 0, _, _ :: _ => .error .pipelineTooLong
  | room + 1, commands, tokens => do
    let (command, next) ← parseCommand tokens
    match next with
    | .operator .pipe :: next => parseStages room (commands ++ [command]) next
    | next => .ok (⟨commands ++ [command]⟩, next)

/-- The operator after a pipeline, and the tokens after it. -/
def parseConnector : List Token → Except ParseError (List Token × Connector)
  | [] => .ok ([], .end_)
  | .operator .semicolon :: rest => .ok (rest, .always)
  | .operator .and :: rest => .ok (rest, .onSuccess)
  | .operator .or :: rest => .ok (rest, .onFailure)
  | .operator .background :: rest => .ok (rest, .background)
  | _ => .error .unexpectedOperator

def parsePipeline (tokens : List Token) :
    Except ParseError (Pipeline × List Token × Connector) := do
  let (pipeline, next) ← parseStages maxPipeline [] tokens
  let (next, connector) ← parseConnector next
  .ok (pipeline, next, connector)

/-- The loop of `parse_list`, with the room that is left for entries. -/
def parseEntries : ℕ → List Token → Except ParseError (List Entry)
  | _, [] => .ok []
  | 0, _ :: _ => .error .pipelineTooLong
  | room + 1, tokens => do
    let (pipeline, next, connector) ← parsePipeline tokens
    if connector = .end_ then .ok [⟨pipeline, connector⟩]
    else do
      let entries ← parseEntries room next
      .ok (⟨pipeline, connector⟩ :: entries)

def parseList (tokens : List Token) : Except ParseError (List Entry) :=
  parseEntries maxEntries tokens

end ImagineOS.Shell
