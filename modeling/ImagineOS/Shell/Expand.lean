import ImagineOS.Shell.Parser
import ImagineOS.Text

/-!
# Shell: expansion, and the stages of a pipeline that are builtins

Words are expanded with the variables of an environment, and split at white space unless they are
quoted. A stage of a pipeline whose first word names a builtin has no program of its own: its words
are joined to a line again, which another shell reads with `-c`.
-/

namespace ImagineOS.Shell

def maxFields : ℕ := 8

def fieldSize : ℕ := 64

def nameSize : ℕ := 24

def valueSize : ℕ := 96

/-! ### Variables -/

structure Variable where
  name : List UInt8
  value : List UInt8
  exported : Bool
  deriving DecidableEq

/-- `Environment`: the variables of the table that are active. -/
structure Environment where
  active : List Variable
  deriving DecidableEq

/-- `u8::is_ascii_alphabetic` -/
def isAlphabetic (b : UInt8) : Bool := (65 ≤ b && b ≤ 90) || (97 ≤ b && b ≤ 122)

/-- `u8::is_ascii_alphanumeric` -/
def isAlphanumeric (b : UInt8) : Bool := (48 ≤ b && b ≤ 57) || isAlphabetic b

/-- A byte of a variable's name. -/
def isNameByte (b : UInt8) : Bool := isAlphanumeric b || b == 95

def validName : List UInt8 → Bool
  | [] => false
  | first :: rest => (isAlphabetic first || first == 95 || first == 63) && rest.all isNameByte

def maxVariables : ℕ := 24

namespace Environment

def get (environment : Environment) (name : List UInt8) : Option (List UInt8) :=
  (environment.active.find? (·.name = name)).map Variable.value

def set (environment : Environment) (name value : List UInt8) (exported : Bool) : Environment :=
  if !validName name ∨ name.length > nameSize ∨ value.length > valueSize then environment
  else match environment.active.findIdx? (·.name = name) with
  | some slot => ⟨environment.active.set slot ⟨name, value, exported⟩⟩
  | none =>
    if environment.active.length = maxVariables then environment
    else ⟨environment.active ++ [⟨name, value, exported⟩]⟩

/-- `Environment::new` -/
def new : Environment :=
  (((((⟨[]⟩ : Environment).set [72, 79, 77, 69] [47, 104, 111, 109, 101] true).set
    [80, 65, 84, 72] [47, 98, 105, 110] true).set [80, 87, 68] [47] true).set
    [83, 72, 69, 76, 76] [47, 98, 105, 110, 47, 115, 104, 101, 108, 108] true).set [63] [48] false

end Environment

/-- `identity`, as the shell reads it. -/
structure Identity where
  uid : ℕ
  username : List UInt8
  hostname : List UInt8

/-- `initialise_from_identity`, where no identity is the error of the call. -/
def initialiseFromIdentity (environment : Environment) : Option Identity → Environment
  | none => environment
  | some identity =>
    let environment := environment.set [85, 83, 69, 82] identity.username true
    let environment := environment.set [72, 79, 83, 84, 78, 65, 77, 69] identity.hostname true
    if identity.uid = 0 then environment
    else
      -- `/home/`; a name that does not fit its table is refused by `set` as well.
      environment.set [72, 79, 77, 69] ([47, 104, 111, 109, 101, 47] ++ identity.username) true

/-! ### Expansion -/

/-- `parse_reference` after a `$`: the name, and the number of bytes it takes. -/
def parseReference : List UInt8 → List UInt8 × ℕ
  | [] => ([], 0)
  | byte :: rest =>
    if byte = 123 then
      if rest.contains 125 then
        let name := rest.takeWhile (· != 125)
        (name, name.length + 2)
      else ([], 0)
    else if byte = 63 ∨ byte = dollar then ([byte], 1)
    else
      let name := (byte :: rest).takeWhile isNameByte
      (name, name.length)

/-- The loop of `expand_segment`, that has the given number of bytes to pass over. -/
def expandBytes (environment : Environment) : ℕ → List UInt8 → List UInt8
  | _, [] => []
  | skip + 1, _ :: rest => expandBytes environment skip rest
  | 0, byte :: rest =>
    if byte ≠ dollar then byte :: expandBytes environment 0 rest
    else match parseReference rest with
    | ([], _) => dollar :: expandBytes environment 0 rest
    | (name, width) => (environment.get name).getD [] ++ expandBytes environment width rest

/-- `expand_segment` onto a field; `push_byte` drops what does not fit. -/
def expandSegment (environment : Environment) (segment : Segment) (current : List UInt8) :
    List UInt8 :=
  (current ++ expandBytes environment 0 segment.bytes).take fieldSize

/-- The loop of `expand`: the field, and whether a segment was read. -/
def expandSegments (environment : Environment) :
    List Segment → List UInt8 × Bool → List UInt8 × Bool
  | [], current => current
  | segment :: segments, (current, produced) =>
    if segment.copiesVariable then
      expandSegments environment segments (expandSegment environment segment current, true)
    else if current.length + segment.bytes.length > fieldSize then (current, produced)
    else expandSegments environment segments (current ++ segment.bytes, true)

/-- `u8::is_ascii_whitespace` -/
def isWhitespace (b : UInt8) : Bool := b == 32 || b == 9 || b == 10 || b == 12 || b == 13

def pushField (fields : List (List UInt8)) (field : List UInt8) : List (List UInt8) :=
  if fields.length = maxFields ∨ field.length > fieldSize then fields else fields ++ [field]

def splitFields (input : List UInt8) : List (List UInt8) :=
  ((input.splitOnP isWhitespace).filter (· ≠ [])).foldl pushField []

def expand (environment : Environment) (word : Word) : List (List UInt8) :=
  let (current, produced) := expandSegments environment word.segments ([], false)
  if !produced then []
  else if word.segments.any (·.kind = .unquoted) then splitFields current
  else pushField [] current

/-! ### Builtins of a pipeline -/

/-- The expanded words of a stage, in the tables that hold them. -/
structure Arguments where
  words : List (List UInt8)
  length_le : words.length ≤ maxWords
  size_le : ∀ word ∈ words, word.length ≤ fieldSize

theorem size_pushField {fields : List (List UInt8)} {field : List UInt8}
    (h : ∀ f ∈ fields, f.length ≤ fieldSize) :
    ∀ f ∈ pushField fields field, f.length ≤ fieldSize := by
  intro f hf
  unfold pushField at hf
  split at hf
  · exact h f hf
  · rename_i hfit
    rcases List.mem_append.mp hf with hf | hf
    · exact h f hf
    · rw [List.mem_singleton.mp hf]
      exact Nat.le_of_not_lt fun hlt => hfit (Or.inr hlt)

theorem size_foldl_pushField {input fields : List (List UInt8)}
    (h : ∀ f ∈ fields, f.length ≤ fieldSize) :
    ∀ f ∈ input.foldl pushField fields, f.length ≤ fieldSize := by
  induction input generalizing fields with
  | nil => exact h
  | cons _ _ ih => exact ih (size_pushField h)

theorem size_expand {environment : Environment} {word : Word} :
    ∀ field ∈ expand environment word, field.length ≤ fieldSize := by
  have hnil : ∀ f ∈ ([] : List (List UInt8)), f.length ≤ fieldSize :=
    fun _ h => absurd h List.not_mem_nil
  intro field h
  simp only [expand] at h
  split at h
  · exact hnil field h
  · split at h
    · exact size_foldl_pushField hnil field h
    · exact size_pushField hnil field h

/-- The words of a stage, of which `execve_stage` keeps those that fit. -/
def stageArguments (environment : Environment) (command : Command) : Arguments where
  words := (command.words.flatMap (expand environment)).take maxWords
  length_le := List.length_take_le ..
  size_le word h := by
    obtain ⟨_, _, h⟩ := List.mem_flatMap.mp (List.mem_of_mem_take h)
    exact size_expand word h

/-- `is_builtin_name`: `cd`, `pwd`, `echo`, `export`, `unset`, `set`, `exit`, `logout`, `:`, `true`,
`false` and `help`. -/
def isBuiltinName (name : List UInt8) : Bool :=
  [[99, 100], [112, 119, 100], [101, 99, 104, 111], [101, 120, 112, 111, 114, 116],
    [117, 110, 115, 101, 116], [115, 101, 116], [101, 120, 105, 116],
    [108, 111, 103, 111, 117, 116], [58], [116, 114, 117, 101], [102, 97, 108, 115, 101],
    [104, 101, 108, 112]].contains name

/-- The loop of `join_arguments`, onto what is already written. -/
def joinLoop : List UInt8 → List (List UInt8) → List UInt8
  | line, [] => line
  | line, word :: words =>
    if line.length = fieldSize then line
    else joinLoop (line ++ [32] ++ word.take (fieldSize - (line.length + 1))) words

def joinArguments : List (List UInt8) → List UInt8
  | [] => []
  | word :: words => joinLoop (word.take fieldSize) words

/-- What goes wrong between a stage and the shell that runs it. -/
inductive StageError
  | encoding
  | invalidArgument
  | lex (error : LexError)
  | parse (error : ParseError)
  deriving DecidableEq

/-- `execve_stage` for a builtin, up to the entries that `run_line` of the other shell runs. -/
def runBuiltinStage (arguments : Arguments) : Except StageError (List Entry) :=
  let line := joinArguments arguments.words
  if !validUtf8 line then .error .encoding
  -- `user_arg`
  else if line.contains 0 then .error .invalidArgument
  else if line.all isWhitespace then .ok []
  else match tokenize line with
  | .error error => .error (.lex error)
  | .ok tokens => match parseList tokens with
    | .error error => .error (.parse error)
    | .ok entries => .ok entries

end ImagineOS.Shell
