import Mathlib.Data.Nat.Notation

/-!
# Shell: the lexer

A line of the shell is cut into words and operators. A word is a list of segments, each of which
remembers how it was quoted. The tables of the source are of fixed size: words have two segments of
64 bytes, and lines 24 tokens.
-/

namespace ImagineOS.Shell

def maxTokens : ℕ := 24

def tokenSize : ℕ := 64

def maxSegments : ℕ := 2

/-! ### Bytes of the syntax -/

/-- A blank between words. -/
def isBlank (b : UInt8) : Bool := b == 32 || b == 9

/-- `'\''` -/
def singleQuote : UInt8 := 39

/-- `'"'` -/
def doubleQuote : UInt8 := 34

/-- `'\\'` -/
def backslash : UInt8 := 92

/-- `'$'` -/
def dollar : UInt8 := 36

/-- `'#'` -/
def hash : UInt8 := 35

/-! ### Tokens -/

inductive SegmentKind
  | unquoted
  | singleQuoted
  | doubleQuoted
  deriving DecidableEq

structure Segment where
  bytes : List UInt8
  kind : SegmentKind
  copiesVariable : Bool
  deriving DecidableEq

structure Word where
  segments : List Segment
  deriving DecidableEq

inductive Operator
  | pipe
  | and
  | or
  | semicolon
  | background
  | redirectIn
  | redirectOut
  | redirectAppend
  deriving DecidableEq

inductive Token
  | word (word : Word)
  | operator (operator : Operator)
  deriving DecidableEq

inductive LexError
  | unterminatedQuote
  | tooManyTokens
  | wordTooLong
  deriving DecidableEq

/-! ### Reading -/

/-- `operator_at`: the operator at the start of a line, with its width. -/
def operatorAt : List UInt8 → Option (Operator × ℕ)
  -- The longer ones first.
  | 38 :: 38 :: _ => some (.and, 2)
  | 124 :: 124 :: _ => some (.or, 2)
  | 62 :: 62 :: _ => some (.redirectAppend, 2)
  | 124 :: _ => some (.pipe, 1)
  | 59 :: _ => some (.semicolon, 1)
  | 38 :: _ => some (.background, 1)
  | 60 :: _ => some (.redirectIn, 1)
  | 62 :: _ => some (.redirectOut, 1)
  | _ => none

def Segment.pushByte (segment : Segment) (byte : UInt8) : Except LexError Segment :=
  if segment.bytes.length = tokenSize then .error .wordTooLong
  else .ok { segment with bytes := segment.bytes ++ [byte] }

/-- `push_segment`, up to the word: a segment of these bytes. -/
def Segment.ofBytes (bytes : List UInt8) (kind : SegmentKind) (copiesVariable : Bool) :
    Except LexError Segment :=
  bytes.foldlM Segment.pushByte ⟨[], kind, copiesVariable⟩

/-- The part of a line between double quotes, up to the closing one. -/
def readDoubleQuoted : List UInt8 → Segment → Except LexError (Segment × List UInt8)
  | [], _ => .error .unterminatedQuote
  | [byte], segment =>
    if byte = doubleQuote then .ok (segment, [])
    else do
      let _ ← { segment with copiesVariable :=
        segment.copiesVariable || byte == dollar }.pushByte byte
      .error .unterminatedQuote
  | byte :: next :: rest, segment =>
    if byte = doubleQuote then .ok (segment, next :: rest)
    else if byte = backslash ∧
      (next = doubleQuote ∨ next = backslash ∨ next = dollar ∨ next = 96) then do
      let segment ← segment.pushByte next
      readDoubleQuoted rest segment
    else do
      let segment ← { segment with
        copiesVariable := segment.copiesVariable || byte == dollar }.pushByte byte
      readDoubleQuoted (next :: rest) segment

/-- Whether a run of unquoted bytes ends before this line. -/
def endsRun (line : List UInt8) : Bool :=
  match line with
  | [] => true
  | byte :: _ => isBlank byte || byte == singleQuote || byte == doubleQuote || byte == backslash ||
    (operatorAt line).isSome

/-- The longest run of unquoted bytes, and the rest of the line. -/
def unquotedRun : List UInt8 → List UInt8 × List UInt8
  | [] => ([], [])
  | byte :: rest =>
    if endsRun (byte :: rest) then ([], byte :: rest)
    else
      let (run, rest) := unquotedRun rest
      (byte :: run, rest)

/-- The loop of `read_word`: one segment, and the rest of the line. -/
def readSegment : List UInt8 → Except LexError (Segment × List UInt8)
  | [] => .error .unterminatedQuote
  | byte :: rest =>
    if byte = singleQuote then
      let quoted := rest.takeWhile (· != singleQuote)
      match rest.dropWhile (· != singleQuote) with
      | [] => .error .unterminatedQuote
      | _ :: after => do
        let segment ← Segment.ofBytes quoted .singleQuoted false
        .ok (segment, after)
    else if byte = doubleQuote then readDoubleQuoted rest ⟨[], .doubleQuoted, false⟩
    else if byte = backslash then
      match rest with
      | [] => .error .unterminatedQuote
      | escaped :: rest => do
        let segment ← Segment.ofBytes [escaped] .unquoted false
        .ok (segment, rest)
    else do
      let (run, after) := unquotedRun (byte :: rest)
      let segment ← Segment.ofBytes run .unquoted (run.contains dollar)
      .ok (segment, after)

/-- Whether a word ends before this line. -/
def endsWord (line : List UInt8) : Bool :=
  match line with
  | [] => true
  | byte :: _ => isBlank byte || (operatorAt line).isSome

/-- `read_word`, with the room that is left for segments. -/
def readWord : ℕ → Word → List UInt8 → Except LexError (Word × List UInt8)
  | room, word, line =>
    if endsWord line then
      if word.segments = [] then .error .wordTooLong else .ok (word, line)
    else do
      let (segment, rest) ← readSegment line
      -- `push_segment_direct`
      match room with
      | 0 => .error .wordTooLong
      | room + 1 => readWord room ⟨word.segments ++ [segment]⟩ rest

/-- The loop of `tokenize`, with the room that is left for tokens. -/
def tokenizeLoop : ℕ → List UInt8 → Except LexError (List Token)
  | room, line =>
    match line.dropWhile isBlank with
    | [] => .ok []
    | byte :: rest =>
      if byte = hash then .ok []
      else match operatorAt (byte :: rest), room with
      | _, 0 => .error .tooManyTokens
      | some (operator, width), room + 1 => do
        let tokens ← tokenizeLoop room ((byte :: rest).drop width)
        .ok (.operator operator :: tokens)
      | none, room + 1 => do
        let (word, rest) ← readWord maxSegments ⟨[]⟩ (byte :: rest)
        let tokens ← tokenizeLoop room rest
        .ok (.word word :: tokens)

def tokenize (line : List UInt8) : Except LexError (List Token) := tokenizeLoop maxTokens line

end ImagineOS.Shell
