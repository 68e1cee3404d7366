import ImagineOS.Exec.Accounts
import Mathlib.Order.Lattice.Nat

/-!
# Processes: tables and the scheduler

The kernel has a fixed table of processes, a descriptor table for each slot of it, and a fixed table
of pipes. A process that exits keeps its slot, as a zombie, until its parent collects it.
-/

namespace ImagineOS.Exec

abbrev maxProcesses : ℕ := 16

instance : NeZero maxProcesses := ⟨by decide⟩

abbrev maxOpenFds : ℕ := 24

instance : NeZero maxOpenFds := ⟨by decide⟩

abbrev maxPipes : ℕ := 8

/-- `usize::MAX` -/
def usizeMax : ℕ := 2 ^ 64 - 1

/-! ### Pipes -/

/-- `Pipe`: the counts. -/
@[ext] structure Pipe where
  isOpen : Bool
  readers : ℕ
  writers : ℕ
  deriving DecidableEq

/-- `Pipe::EMPTY` -/
def Pipe.empty : Pipe := ⟨false, 0, 0⟩

/-- The two ends of a pipe. -/
inductive End
  | reader
  | writer
  deriving DecidableEq

/-- The count of one end. -/
def Pipe.count (p : Pipe) : End → ℕ
  | .reader => p.readers
  | .writer => p.writers

/-- The pipe with another count for one end. -/
def Pipe.setCount (p : Pipe) (n : ℕ) : End → Pipe
  | .reader => { p with readers := n }
  | .writer => { p with writers := n }

abbrev Pipes := Fin maxPipes → Pipe

namespace Ipc

def create (pipes : Pipes) : Option (Fin maxPipes × Pipes) :=
  ((List.finRange maxPipes).find? fun id => !(pipes id).isOpen).map fun id =>
    (id, Function.update pipes id ⟨true, 1, 1⟩)

/-- `pipe`: the slot of an open pipe. -/
def pipe (id : ℕ) (pipes : Pipes) : Option (Fin maxPipes) :=
  if h : id < maxPipes then if (pipes ⟨id, h⟩).isOpen then some ⟨id, h⟩ else none else none

/-- Another descriptor for an end. -/
def addEnd (e : End) (id : ℕ) (pipes : Pipes) : Option Pipes :=
  (pipe id pipes).map fun i =>
    Function.update pipes i ((pipes i).setCount (min ((pipes i).count e + 1) usizeMax) e)

def addReader : ℕ → Pipes → Option Pipes := addEnd .reader

def addWriter : ℕ → Pipes → Option Pipes := addEnd .writer

/-- A descriptor less for an end. -/
def closeEnd (e : End) (id : ℕ) (pipes : Pipes) : Pipes :=
  match pipe id pipes with
  | none => pipes
  | some i =>
    let closed := (pipes i).setCount ((pipes i).count e - 1) e
    Function.update pipes i (if closed.readers = 0 ∧ closed.writers = 0 then .empty else closed)

def closeReader : ℕ → Pipes → Pipes := closeEnd .reader

def closeWriter : ℕ → Pipes → Pipes := closeEnd .writer

end Ipc

/-! ### Descriptors -/

inductive DescriptorKind
  | closed
  | stdin
  | stdout
  | stderr
  | file
  | pipeRead
  | pipeWrite
  deriving DecidableEq

/-- `Descriptor`: what it is, and the pipe of an end. -/
structure Descriptor where
  kind : DescriptorKind
  pipe : ℕ
  deriving DecidableEq

/-- `Descriptor::new` -/
def Descriptor.new (kind : DescriptorKind) : Descriptor := ⟨kind, 0⟩

/-- `Descriptor::CLOSED` -/
def Descriptor.closed : Descriptor := .new .closed

abbrev DescriptorTable := Fin maxOpenFds → Descriptor

/-- `DescriptorTable::new` -/
def DescriptorTable.new : DescriptorTable := fun fd =>
  if fd.val = 0 then .new .stdin
  else if fd.val = 1 then .new .stdout
  else if fd.val = 2 then .new .stderr
  else .closed

/-- `DescriptorTable::allocate` -/
def DescriptorTable.allocate (t : DescriptorTable) (d : Descriptor) :
    Option (Fin maxOpenFds × DescriptorTable) :=
  ((List.finRange maxOpenFds).find? fun fd => 3 ≤ fd.val ∧ (t fd).kind = .closed).map fun fd =>
    (fd, Function.update t fd d)

/-- One more reference to the pipe of a descriptor, if it has one. -/
def addReference (d : Descriptor) (pipes : Pipes) : Option Pipes :=
  match d.kind with
  | .pipeRead => Ipc.addReader d.pipe pipes
  | .pipeWrite => Ipc.addWriter d.pipe pipes
  | _ => some pipes

def releasePipeReference (d : Descriptor) (pipes : Pipes) : Pipes :=
  match d.kind with
  | .pipeRead => Ipc.closeReader d.pipe pipes
  | .pipeWrite => Ipc.closeWriter d.pipe pipes
  | _ => pipes

/-! ### Processes -/

/-- What is remembered about a process beside its slot: the path that its image was loaded from, the
number of its creation, and the one of its creator. The source has no such field. -/
structure History where
  image : String
  birth : ℕ
  creator : ℕ
  deriving DecidableEq

/-- `Process`, without what only the machine and the memory manager use. -/
structure Process where
  pid : ℕ
  active : Bool
  stopped : Bool
  parent : ℕ
  zombie : Bool
  exitStatus : ℤ
  waitingFor : ℕ
  quantum : ℕ
  allowsDiskInstall : Bool
  uid : ℕ
  gid : ℕ
  isAdmin : Bool
  username : List UInt8
  pendingSignals : BitVec 64
  signalActions : Fin 32 → ℕ
  signalRestorer : ℕ
  /-- Whether a frame is saved. -/
  signalFrame : Bool
  history : History

def signalDefault : ℕ := 0

def signalIgnore : ℕ := 1

/-- `Process::EMPTY` -/
def Process.empty : Process where
  pid := 0
  active := false
  stopped := false
  parent := 0
  zombie := false
  exitStatus := 0
  waitingFor := 0
  quantum := 0
  allowsDiskInstall := false
  uid := 0
  gid := 0
  isAdmin := true
  username := rootName
  pendingSignals := 0
  signalActions := fun _ => signalDefault
  signalRestorer := 0
  signalFrame := false
  history := ⟨"", 0, 0⟩

/-- The tables of the kernel. Pids are as many as are needed: numbers of 64 bits last for longer
than a machine does. -/
structure System where
  processes : Fin maxProcesses → Process
  current : Fin maxProcesses
  tables : Fin maxProcesses → DescriptorTable
  pipes : Pipes
  /-- `kernel_halt` was called. -/
  halted : Bool
  /-- The number of processes that were created. -/
  births : ℕ
  /-- The processes whose status was collected, by the numbers of their creation, with the
  collector and the status. -/
  collected : List (ℕ × ℕ × ℤ)

/-- The process that runs. -/
def System.self (s : System) : Process := s.processes s.current

/-- The process that runs, with other fields. -/
def System.setSelf (s : System) (p : Process) : System :=
  { s with processes := Function.update s.processes s.current p }

@[simp] theorem System.self_setSelf (s : System) (p : Process) : (s.setSelf p).self = p :=
  Function.update_self _ _ _

/-! ### Descriptors of the process that runs -/

/-- The table ends at `MAX_OPEN_FDS`. -/
def fdIndex (fd : ℕ) : Option (Fin maxOpenFds) := if h : fd < maxOpenFds then some ⟨fd, h⟩ else none

/-- The descriptor table of the process that runs, with another descriptor. -/
def System.setDescriptor (s : System) (fd : Fin maxOpenFds) (d : Descriptor) (pipes : Pipes) :
    System :=
  { s with
    tables := Function.update s.tables s.current (Function.update (s.tables s.current) fd d)
    pipes := pipes }

def allocateDescriptor (d : Descriptor) (s : System) : Option (Fin maxOpenFds) × System :=
  match (s.tables s.current).allocate d with
  | none => (none, s)
  | some (fd, t) => (some fd, { s with tables := Function.update s.tables s.current t })

def closeDescriptor (fd : ℕ) (s : System) : Bool × System :=
  match fdIndex fd with
  | none => (false, s)
  | some fd =>
    let d := s.tables s.current fd
    if d.kind = .closed then (false, s)
    else (true, s.setDescriptor fd .closed (releasePipeReference d s.pipes))

/-- `duplicate_descriptor`: the new descriptor, or an error. -/
def duplicateDescriptor (fd : ℕ) (s : System) : Except ℤ ℕ × System :=
  match fdIndex fd with
  | none => (.error (-9), s)
  | some fd =>
    let d := s.tables s.current fd
    if d.kind = .closed then (.error (-9), s)
    else match addReference d s.pipes with
    | none => (.error (-9), s)
    | some pipes =>
      match allocateDescriptor d { s with pipes := pipes } with
      | (some fd, s) => (.ok fd, s)
      | (none, s) => (.error (-24), { s with pipes := releasePipeReference d s.pipes })

def duplicateDescriptorTo (source target : ℕ) (s : System) : Except ℤ ℕ × System :=
  match fdIndex target with
  | none => (.error (-9), s)
  | some target =>
    match fdIndex source with
    | none => (.error (-9), s)
    | some source =>
      let d := s.tables s.current source
      if d.kind = .closed then (.error (-9), s)
      else if source = target then (.ok target, s)
      else match addReference d s.pipes with
      | none => (.error (-9), s)
      | some pipes =>
        (.ok target,
          s.setDescriptor target d (releasePipeReference (s.tables s.current target) pipes))

/-- `create_pipe`, when copying the descriptors to the caller succeeds if `copied` is set. -/
def createPipe (copied : Bool) (s : System) : ℤ × System :=
  match Ipc.create s.pipes with
  | none => (-23, s)
  | some (id, pipes) =>
    let (readEnd, s) := allocateDescriptor ⟨.pipeRead, id⟩ { s with pipes := pipes }
    let (writeEnd, s) := allocateDescriptor ⟨.pipeWrite, id⟩ s
    match readEnd, writeEnd with
    | some readEnd, some writeEnd =>
      if copied then (0, s)
      else (-14, (closeDescriptor writeEnd (closeDescriptor readEnd s).2).2)
    | _, _ =>
      -- What was allocated is given back, and then both ends are closed.
      let s := (readEnd.map fun fd => (closeDescriptor fd s).2).getD s
      let s := (writeEnd.map fun fd => (closeDescriptor fd s).2).getD s
      (-24, { s with pipes := Ipc.closeWriter id (Ipc.closeReader id s.pipes) })

/-- `release_descriptors`: the pipes after the descriptors in the list were closed. -/
def releaseAll (t : DescriptorTable) : List (Fin maxOpenFds) → Pipes → Pipes
  | [], pipes => pipes
  | fd :: rest, pipes => releaseAll t rest (releasePipeReference (t fd) pipes)

/-- The pipes after all descriptors in the list got one more reference. -/
def addAll (t : DescriptorTable) : List (Fin maxOpenFds) → Pipes → Pipes
  | [], pipes => pipes
  | fd :: rest, pipes => addAll t rest ((addReference (t fd) pipes).getD pipes)

/-! ### Scheduling -/

/-- Whether `schedule` may choose a process. -/
def Process.eligible (p : Process) : Bool :=
  p.active && !p.stopped && !p.zombie && p.waitingFor == 0

/-- The slots in the order in which `schedule` looks at them. -/
def candidates (current : Fin maxProcesses) : List (Fin maxProcesses) :=
  (List.range' 1 maxProcesses).map fun distance => Fin.ofNat maxProcesses (current + distance)

/-- The process that runs ends: it becomes a zombie, its descriptors are closed, and who waits for
it may run again. -/
def System.finish (s : System) : System :=
  let finished := s.self.pid
  let processes := Function.update s.processes s.current
    { s.self with zombie := true, stopped := false, waitingFor := 0 }
  { s with
    processes := fun i =>
      if (processes i).waitingFor = finished then { processes i with waitingFor := 0 }
      else processes i
    tables := Function.update s.tables s.current fun _ => .closed
    pipes := releaseAll (s.tables s.current) (List.finRange maxOpenFds) s.pipes }

def schedule (exiting : Bool) (s : System) : System :=
  let s := if exiting then s.finish else s
  match (candidates s.current).find? fun i => (s.processes i).eligible with
  | some next => { s with current := next }
  | none => { s with halted := true }

end ImagineOS.Exec
