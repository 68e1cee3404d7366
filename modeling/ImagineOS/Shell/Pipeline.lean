import ImagineOS.Exec.Tables

/-!
# Shell: the processes of a pipeline

For a pipeline of several stages the shell creates all pipes, forks once for each stage, and closes
its ends of the pipes; each child closes the ends that it does not use, and makes the others its
standard input and output. What they ask the kernel for is a program that goes on with the answers
(`Code`).
-/

namespace ImagineOS

namespace Exec

/-! ### Reading a pipe -/

/-- `PipeError`, as far as `read` returns it. -/
inductive PipeError
  | invalid
  | wouldBlock
  deriving DecidableEq

/-- `read`: the number of bytes that a read of up to `requested` bytes gets from a pipe with
`buffered` bytes in its buffer. -/
def Ipc.read (id buffered requested : ℕ) (pipes : Pipes) : Except PipeError ℕ :=
  match pipe id pipes with
  | none => .error .invalid
  | some id =>
    if buffered = 0 then
      if (pipes id).writers = 0 then .ok 0 else .error .wouldBlock
    else .ok (min requested buffered)

end Exec

namespace Shell

open Exec

/-! ### The code of the shell -/

/-- What follows the code. -/
inductive Ending
  /-- `execve_stage` -/
  | execveStage
  /-- The stages are waited for. -/
  | collect (pids : List ℤ)
  /-- A pipe or a process could not be made. The stages that are there are waited for. -/
  | failure (pids : List ℤ)
  deriving DecidableEq

/-- What a process asks the kernel for, and how it goes on with the answers. -/
inductive Code
  /-- `process::pipe()`, whose answer is the two descriptors. -/
  | pipe (next : Option (ℕ × ℕ) → Code)
  /-- `process::fork()`. Below zero the answer is an error, and zero is the answer for the child. -/
  | fork (next : ℤ → Code)
  /-- `let _ = fs::close(fd)` -/
  | close (fd : ℕ) (next : Code)
  /-- `let _ = process::duplicate_to(source, target)` -/
  | duplicateTo (source target : ℕ) (next : Code)
  | ended (ending : Ending)

/-- The descriptors of pipes. -/
def descriptors (pipes : List (ℕ × ℕ)) : List ℕ := pipes.flatMap fun ends => [ends.1, ends.2]

/-- Some descriptors are closed. -/
def closeAll : List ℕ → Code → Code
  | [], next => next
  | fd :: rest, next => .close fd (closeAll rest next)

def closePipes (pipes : List (ℕ × ℕ)) (next : Code) : Code := closeAll (descriptors pipes) next

/-- An end of a pipe becomes a standard descriptor, unless it is `usize::MAX`. -/
def install (fd target : ℕ) (next : Code) : Code :=
  if fd = usizeMax then next else .duplicateTo fd target (.close fd next)

def childSetupPipes (pipes : List (ℕ × ℕ)) (index stageCount : ℕ) (next : Code) : Code :=
  let usedStdin := if index = 0 then usizeMax else (pipes.getD (index - 1) (0, 0)).1
  let usedStdout := if index + 1 = stageCount then usizeMax else (pipes.getD index (0, 0)).2
  closeAll ((descriptors pipes).filter fun fd => fd ≠ usedStdin ∧ fd ≠ usedStdout)
    (install usedStdin 0 (install usedStdout 1 next))

/-- The first step of `run_pipeline_processes`: `count` more pipes are created. -/
def createPipes : ℕ → List (ℕ × ℕ) → (List (ℕ × ℕ) → Code) → Code
  | 0, pipes, next => next pipes
  | count + 1, pipes, next => .pipe fun
    | some ends => createPipes count (pipes ++ [ends]) next
    | none => closePipes pipes (.ended (.failure []))

/-- The second and the third step: the stages from `index` on, of which there are `count`, are
forked, and then the ends of the pipes are closed. -/
def forkStages (pipes : List (ℕ × ℕ)) (stageCount : ℕ) : ℕ → ℕ → List ℤ → Code
  | 0, _, pids => closePipes pipes (.ended (.collect pids))
  | count + 1, index, pids => .fork fun answer =>
    if answer < 0 then closePipes pipes (.ended (.failure pids))
    else if answer = 0 then childSetupPipes pipes index stageCount (.ended .execveStage)
    else forkStages pipes stageCount count (index + 1) (pids ++ [answer])

/-- `run_pipeline_processes`, until the stages are waited for. -/
def runPipelineProcesses (stageCount : ℕ) : Code :=
  createPipes (stageCount - 1) [] fun pipes => forkStages pipes stageCount stageCount 0 []

/-! ### Calls of the code -/

namespace Code

/-- Nothing of the code is left. -/
def isEnded : Code → Bool
  | ended _ => true
  | _ => false

/-- The code after a call, if it is the one that the code makes. -/
def resume (s : System) : Code → Call → Option Code
  | pipe next, .pipe copied =>
      some (next (if (createPipe copied s).1 = 0 then pipeEnds s else none))
  | fork next, .fork cloned => some (next (forkCurrent cloned s).1)
  | close fd next, .close fd' => if fd' = fd then some next else none
  | duplicateTo source target next, .dup2 source' target' =>
    if source' = source ∧ target' = target then some next else none
  | _, _ => none

end Code

/-- What a process is doing. -/
inductive Role
  /-- It has nothing to do with the pipeline. -/
  | other
  /-- It is the shell, which has forked some stages. -/
  | shell (launched : ℕ) (code : Code)
  /-- It is the child for a stage, in its set-up. -/
  | child (index : ℕ) (code : Code)
  /-- It belongs to a stage whose set-up is over: it is the child, or somebody has it created since.
  -/
  | stage (index : ℕ)

namespace Role

/-- The stage that a process belongs to. -/
def index : Role → Option ℕ
  | child index _ | stage index => some index
  | _ => none

/-- No set-up or closing is left to be done. -/
def isDone : Role → Bool
  | shell _ code | child _ code => code.isEnded
  | _ => true

/-- Whether an event may happen to a process that runs: if its code has not ended, it makes the
calls of its code. -/
def allows (s : System) : Role → Event → Bool
  | shell _ code, .call c _ | child _ code, .call c _ => code.isEnded || (code.resume s c).isSome
  | _, _ => true

/-- Whether the event is a `fork` that makes the next stage. -/
def launches (s : System) : Role → Event → Bool
  | shell _ (.fork _), .call (.fork cloned) _ => 0 < (forkCurrent cloned s).1
  | _, _ => false

/-- The pipe that the shell makes with the event. -/
def makes (s : System) : Role → Event → Option (Fin maxPipes)
  | shell _ (.pipe _), .call (.pipe copied) _ =>
    if (createPipe copied s).1 = 0 then (Exec.Ipc.create s.pipes).map (·.1) else none
  | _, _ => none

/-- The process that runs, after its event. -/
def next (s : System) (e : Event) (role : Role) : Role :=
  match role, e with
  | shell launched code, .call c _ =>
    match code.resume s c with
    | some code => shell (if role.launches s e then launched + 1 else launched) code
    | none => other
  | child index code, .call c _ =>
    match code.resume s c with
    | some code => child index code
    | none => stage index
  | _, _ => role

/-- A process that is created by another one. -/
def born : Role → Role
  | shell launched (.fork next) => child launched (next 0)
  | child index _ | stage index => stage index
  | _ => other

end Role

/-! ### Sessions -/

/-- The system while a pipeline is set up and runs. -/
structure Session where
  sys : System
  role : Fin maxProcesses → Role
  /-- The pipes that the shell has made, in their order. -/
  ids : List (Fin maxPipes)
  /-- Those that have been open ever since. -/
  kept : Fin maxPipes → Bool

namespace Session

variable (pbkdf2 : List UInt8 → List UInt8 → ℕ → Option (List UInt8))

/-- The shell begins a pipeline. -/
def start (s : System) (shell : Fin maxProcesses) (stageCount : ℕ) : Session where
  sys := s
  role i := if i = shell then .shell 0 (runPipelineProcesses stageCount) else .other
  ids := []
  kept _ := false

/-- What the process that runs is doing. -/
def self (x : Session) : Role := x.role x.sys.current

/-- One event. -/
def next (e : Event) (x : Session) : Session :=
  let sys := step pbkdf2 e x.sys
  let made := x.self.makes x.sys e
  { sys := sys
    role := fun i =>
      if ¬ sys.Live i then .other
      else if i = x.sys.current then x.self.next x.sys e
      else if (x.sys.processes i).active then x.role i
      else x.self.born
    ids := x.ids ++ made.toList
    kept := fun p => (sys.pipes p).isOpen && (x.kept p || made == some p) }

/-- What happens to the processes, in any order. -/
inductive Reaches (x : Session) : Session → Prop
  | refl : Reaches x x
  | step {y : Session} (h : Reaches x y) (e : Event) (hrun : y.sys.halted = false)
      (hallowed : y.self.allows y.sys e = true) : Reaches x (y.next pbkdf2 e)

/-- All set-up and closing code has been run. -/
def Done (x : Session) : Prop := ∀ i, (x.role i).isDone = true

instance (x : Session) : Decidable x.Done := inferInstanceAs (Decidable (∀ _, _))

end Session

end Shell

end ImagineOS
