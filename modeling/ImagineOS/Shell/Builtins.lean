import ImagineOS.Shell.Exports
import ImagineOS.Shell.Lists
import ImagineOS.Shell.Plain
import ImagineOS.Shell.Redirected

/-!
# Shell: builtins

What a builtin does to the shell itself: its variables, its directory, and what it writes. What goes
on in other processes, and what the kernel answers, is given for each pipeline (`Outside`).
-/

namespace ImagineOS.Shell

/-! ### The state -/

/-- The messages. -/
inductive Message
  /-- `cd: uso: cd [diretorio]` -/
  | cdUsage
  /-- `cd: caminho vazio` -/
  | cdEmpty
  /-- `cd: caminho invalido` -/
  | cdInvalid
  /-- `cd: caminho longo demais` -/
  | cdTooLong
  /-- `cd: codificacao invalida` -/
  | cdEncoding
  /-- `cd: diretorio nao encontrado` -/
  | cdNotFound
  /-- `cd: nao foi possivel inspecionar o diretorio` -/
  | cdCannotInspect
  /-- `export: nome invalido ou valor longo demais` -/
  | exportInvalid
  /-- The names of the builtins, and the operators. -/
  | help
  /-- `shell: pipeline longo demais` -/
  | pipelineTooLong
  deriving DecidableEq

/-- What is written. -/
inductive Output
  | bytes (bytes : List UInt8)
  | message (message : Message)
  | failure (failure : Failure)
  deriving DecidableEq

/-- `Executor`, with what it has written. -/
structure ExecutorState where
  table : Table
  cwd : List UInt8
  shouldExit : Bool
  output : List Output

/-- What a pipeline finds outside of the shell. -/
structure Outside where
  /-- `fs::is_dir`, with nothing for an error. -/
  isDir : Str → Option Bool
  /-- What stops `run_builtin_redirected` before its builtin. -/
  redirection : Option Failure
  /-- The status of other processes, and what is written on the way. -/
  processes : Status × List Output

def statusFailure : Status := 1

/-- `_start`: the state for the first line. -/
def ExecutorState.start (identity : Option Identity) : ExecutorState where
  table := match identity with
    | none => .new
    | some identity =>
      let t := (Table.new.set [85, 83, 69, 82] identity.username true).2
      let t := (t.set [72, 79, 83, 84, 78, 65, 77, 69] identity.hostname true).2
      -- `set` refuses what does not fit the array for `/home/` and the name.
      if identity.uid = 0 then t
      else (t.set [72, 79, 77, 69] ([47, 104, 111, 109, 101, 47] ++ identity.username) true).2
  cwd := [slash]
  shouldExit := false
  output := []

/-- More is written. -/
def ExecutorState.write (s : ExecutorState) (output : List Output) : ExecutorState :=
  { s with output := s.output ++ output }

/-! ### `cd` -/

/-- `HOME` -/
def homeName : List UInt8 := [72, 79, 77, 69]

/-- `PWD` -/
def pwdName : List UInt8 := [80, 87, 68]

def expandTilde (path home : List UInt8) : Option (List UInt8) :=
  if path = [126] then if home.length > maxPath then none else some home
  else match stripPrefix path [126, slash] with
  | some rest =>
    if home.length ≥ maxPath then none
    else if (withSlash home).length + rest.length > maxPath then none
    else some (withSlash home ++ rest)
  | none => if path.length > maxPath then none else some path

/-- The directory that `cd` asks for: what comes before `is_dir`. -/
def cdDirectory (t : Table) (cwd : List UInt8) (arguments : List Word) : Except Message Str :=
  if arguments.length > 1 then .error .cdUsage
  else
    let home := (t.get homeName).getD [slash]
    let target := match arguments with
      | [] => pushField [] (home.take maxPath)
      | word :: _ => expand t.toEnvironment word
    match target with
    | [] => .error .cdEmpty
    | path :: _ =>
      match expandTilde path home with
      | none => .error .cdInvalid
      | some path =>
        match resolve cwd path with
        | none => .error .cdTooLong
        | some resolved =>
          match fromUtf8 resolved with
          | none => .error .cdEncoding
          | some directory => .ok directory

namespace ExecutorState

def builtinCd (outside : Outside) (s : ExecutorState) (arguments : List Word) :
    Status × ExecutorState :=
  match cdDirectory s.table s.cwd arguments with
  | .error e => (statusFailure, s.write [.message e])
  | .ok path =>
    match outside.isDir path with
    | some true =>
      (statusSuccess, { s with cwd := path.1, table := (s.table.set pwdName path.1 true).2 })
    | some false => (statusFailure, s.write [.message .cdNotFound])
    | none => (statusFailure, s.write [.message .cdCannotInspect])

/-! ### The other builtins -/

def builtinPwd (s : ExecutorState) : Status × ExecutorState :=
  (statusSuccess, s.write [.bytes s.cwd, .bytes [10]])

end ExecutorState

def Word.literalBytes (word : Word) : Option (List UInt8) :=
  match word.segments with
  | [segment] => if segment.copiesVariable then none else some segment.bytes
  | _ => none

namespace ExecutorState

def builtinEcho (s : ExecutorState) (arguments : List Word) : Status × ExecutorState :=
  let noNewline := arguments.head?.bind Word.literalBytes = some [45, 110]
  let words := if noNewline then arguments.tail else arguments
  let text := joined (words.map fun word => joined (expand s.table.toEnvironment word))
  (statusSuccess, s.write (.bytes text :: if noNewline then [] else [.bytes [10]]))

def printEnvironment (s : ExecutorState) : Status × ExecutorState :=
  (statusSuccess, s.write (s.table.iterExported.map fun v => .bytes (pair v ++ [10])))

/-- One field in `builtin_export`, with its message. -/
def exportField (s : ExecutorState) (field : List UInt8) : ExecutorState :=
  let refused := (field.idxOf? 61).any fun equal =>
    !(s.table.set (field.take equal) (field.drop (equal + 1)) true).1
  { s with
    table := builtinExport field s.table
    output := s.output ++ if refused then [.message .exportInvalid] else [] }

def builtinExport (s : ExecutorState) (arguments : List Word) : Status × ExecutorState :=
  if arguments = [] then s.printEnvironment
  else (statusSuccess, arguments.foldl
    (fun s word => (expand s.table.toEnvironment word).foldl exportField s) s)

def builtinUnset (s : ExecutorState) (arguments : List Word) : Status × ExecutorState :=
  (statusSuccess, { s with
    table := (arguments.filterMap Word.literalBytes).foldl Table.unset s.table })

end ExecutorState

/-- The builtins. -/
inductive Builtin
  | cd
  | pwd
  | echo
  | export_
  | unset
  | set
  | exit
  | true_
  | false_
  | help
  deriving DecidableEq

/-- The names in `run_builtin`. -/
def builtinNames : List (List UInt8 × Builtin) :=
  [([99, 100], .cd), ([112, 119, 100], .pwd), ([101, 99, 104, 111], .echo),
    ([101, 120, 112, 111, 114, 116], .export_), ([117, 110, 115, 101, 116], .unset),
    ([115, 101, 116], .set), ([101, 120, 105, 116], .exit),
    ([108, 111, 103, 111, 117, 116], .exit), ([58], .true_), ([116, 114, 117, 101], .true_),
    ([102, 97, 108, 115, 101], .false_), ([104, 101, 108, 112], .help)]

/-- The builtin of a name. -/
def Builtin.ofName (name : List UInt8) : Option Builtin :=
  (builtinNames.find? (·.1 = name)).map Prod.snd

/-- `is_builtin_name` knows the names in `run_builtin`. -/
theorem isBuiltinName_eq (name : List UInt8) :
    isBuiltinName name = (Builtin.ofName name).isSome := by
  have hnames : isBuiltinName name = (builtinNames.map Prod.fst).contains name := rfl
  rw [hnames, Builtin.ofName, Option.isSome_map, Bool.eq_iff_iff, List.find?_isSome]
  simp only [List.contains_iff_mem, List.mem_map, decide_eq_true_eq]

def firstWord (t : Table) (command : Command) : Option (List UInt8) :=
  command.words.head?.bind fun word => (expand t.toEnvironment word).head?

namespace ExecutorState

/-- A builtin with its arguments. -/
def call (outside : Outside) (s : ExecutorState) (arguments : List Word) :
    Builtin → Status × ExecutorState
  | .cd => s.builtinCd outside arguments
  | .pwd => s.builtinPwd
  | .echo => s.builtinEcho arguments
  | .export_ => s.builtinExport arguments
  | .unset => s.builtinUnset arguments
  | .set => s.printEnvironment
  | .exit => (statusSuccess, { s with shouldExit := true })
  | .true_ => (statusSuccess, s)
  | .false_ => (statusFailure, s)
  | .help => (statusSuccess, s.write [.message .help])

def runBuiltin (outside : Outside) (s : ExecutorState) (command : Command) :
    Option (Status × ExecutorState) :=
  ((firstWord s.table command).bind Builtin.ofName).map
    (s.call outside command.words.tail)

/-! ### Pipelines -/

/-- A command has a redirection. -/
def redirects (command : Command) : Bool := command.stdin.isSome || command.stdout.isSome

/-- `run_external` and `run_pipeline_processes`, which change nothing in the shell. -/
def runProcesses (outside : Outside) (s : ExecutorState) : Status × ExecutorState :=
  (outside.processes.1, s.write outside.processes.2)

def runSingle (outside : Outside) (s : ExecutorState) (command : Command) :
    Status × ExecutorState :=
  if redirects command then
    if (firstWord s.table command).any isBuiltinName then
      match outside.redirection with
      | some failure => (statusFailure, s.write [.failure failure])
      | none => (s.runBuiltin outside command).getD (statusFailure, s)
    else s.runProcesses outside
  else (s.runBuiltin outside command).getD (s.runProcesses outside)

def runPipeline (outside : Outside) (s : ExecutorState) (pipeline : Pipeline) :
    Status × ExecutorState :=
  match pipeline.commands with
  | [] => (statusFailure, s)
  | [command] => s.runSingle outside command
  | commands =>
    if commands.length ≤ maxPipeline then s.runProcesses outside
    else (statusFailure, s.write [.message .pipelineTooLong])

/-- `set_status`, in the table of the shell. -/
def setStatus (s : ExecutorState) (status : Status) : ExecutorState :=
  { s with table := s.table.setStatus status }

/-- A pipeline in `run_list`, up to the operator after it. -/
def execute (outside : Outside) (s : ExecutorState) (pipeline : Pipeline) :
    Status × ExecutorState :=
  let (status, s) := s.runPipeline outside pipeline
  (status, s.setStatus status)

end ExecutorState

/-! ### Runs -/

/-- The shell as an executor of lists: what it finds outside is given for every pipeline. -/
def executor : Executor (ExecutorState × (ℕ → Outside)) where
  runPipeline pipeline s :=
    let (status, after) := s.1.runPipeline (s.2 0) pipeline
    (status, after, fun k => s.2 (k + 1))
  setStatus status s := (s.1.setStatus status, s.2)
  shouldExit s := s.1.shouldExit

/-- What is reached in steps that are allowed, as long as `exit` has not been called. -/
inductive Steps (allowed : ExecutorState → Outside → Pipeline → Prop) (s : ExecutorState) :
    ExecutorState → Prop
  | refl : Steps allowed s s
  | step {s' : ExecutorState} (h : Steps allowed s s') (hexit : s'.shouldExit = false)
      (outside : Outside) (pipeline : Pipeline) (hallowed : allowed s' outside pipeline) :
      Steps allowed s (s'.execute outside pipeline).2

variable {allowed : ExecutorState → Outside → Pipeline → Prop} {s s' s'' : ExecutorState}

theorem Steps.trans (h : Steps allowed s s') (h' : Steps allowed s' s'') :
    Steps allowed s s'' := by
  induction h' with
  | refl => exact h
  | step _ hexit outside pipeline hallowed ih => exact .step ih hexit outside pipeline hallowed

theorem execute_executor (pipeline : Pipeline) (s : ExecutorState) (outside : ℕ → Outside) :
    executor.execute pipeline (s, outside) =
      ((s.execute (outside 0) pipeline).1, (s.execute (outside 0) pipeline).2,
        fun k => outside (k + 1)) := rfl

/-- From any place of a list on, the shell gets where steps get. -/
theorem steps_runFrom (entries : List Entry) (index : ℕ) (status : Status) (s : ExecutorState)
    (outside : ℕ → Outside) (h : s.shouldExit = false) :
    Steps (fun _ _ _ => True) s
      (executor.runFrom entries index status (s, outside)).state.1 := by
  induction hn : entries.length - index using Nat.strong_induction_on
    generalizing index status s outside with
  | _ n ih =>
    subst hn
    rw [Executor.runFrom]
    split
    · rename_i hlt
      dsimp only
      rw [execute_executor]
      dsimp only
      generalize hafter : (s.execute (outside 0) entries[index].pipeline).2 = after
      have hstep : Steps (fun _ _ _ => True) s after :=
        hafter ▸ .step .refl h (outside 0) entries[index].pipeline trivial
      have hskip := le_skipAlternates entries (index + 1)
      split
      · exact hstep
      · rename_i hexit
        have hgo : ∀ next status', index < next → Steps (fun _ _ _ => True) s
            (executor.runFrom entries next status' (after, fun k => outside (k + 1))).state.1 :=
          fun next status' hnext => hstep.trans
            (ih _ (by omega) next status' after _ (Bool.eq_false_iff.mpr hexit) rfl)
        split
        · exact hstep
        · exact hgo _ _ (Nat.lt_succ_self index)
        · exact hgo _ _ (Nat.lt_succ_self index)
        · split
          · exact hgo _ _ hskip
          · exact hgo _ _ (Nat.lt_succ_self index)
        · split
          · exact hgo _ _ hskip
          · exact hgo _ _ (Nat.lt_succ_self index)
    · exact .refl

/-- **Lists are steps**: whatever the shell does with a list, it gets there step by step. -/
theorem steps_runList (entries : List Entry) (outside : ℕ → Outside) (h : s.shouldExit = false) :
    Steps (fun _ _ _ => True) s (executor.runList entries (s, outside)).state.1 :=
  steps_runFrom entries 0 statusSuccess s outside h

end ImagineOS.Shell
