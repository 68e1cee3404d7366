import ImagineOS.Exec.Scheduler

/-!
# Processes: system calls

What a process can ask for, and what happens to it: it is created by `spawn` or `fork`, replaces its
image with `execve`, waits for its children, changes its identity, gets signals, and ends. What the
file system, the loader and the memory manager answer is part of an event; a run is any sequence of
events.
-/

namespace ImagineOS.Exec

/-! ### Creating processes -/

/-- What becomes of loading a program: access is denied, there is no such file, it cannot be loaded,
or it can. -/
inductive Loading
  | denied
  | missing
  | refused
  | loaded
  deriving DecidableEq

/-- `"/bin/distroinstall"` -/
def distroInstall : String := "/bin/distroinstall"

/-- `load_elf_at` -/
def loadElf (pid : ℕ) (allowsDiskInstall : Bool) (history : History) : Process :=
  { Process.empty with
    pid := pid
    active := true
    allowsDiskInstall := allowsDiskInstall
    history := history }

/-- `SpawnIo`: the descriptors to install. -/
structure SpawnIo where
  stdinFd : ℤ
  stdoutFd : ℤ
  stderrFd : ℤ

/-- `SpawnIo::INHERIT` -/
def SpawnIo.inherit : ℤ := -1

/-- The loop of `apply_spawn_io`, for one descriptor. -/
def applySpawnFd (parent : DescriptorTable) (target : Fin maxOpenFds) (source : ℤ)
    (c : DescriptorTable × Pipes) : DescriptorTable × Pipes :=
  if source = SpawnIo.inherit ∨ source < 0 then c
  else match fdIndex source.toNat with
  | none => c
  | some source =>
    let d := parent source
    if d.kind = .closed then c
    else (Function.update c.1 target d, (addReference d c.2).getD c.2)

def applySpawnIo (child : DescriptorTable) (io : SpawnIo) (parent : DescriptorTable)
    (pipes : Pipes) : DescriptorTable × Pipes :=
  applySpawnFd parent 2 io.stderrFd <| applySpawnFd parent 1 io.stdoutFd <|
    applySpawnFd parent 0 io.stdinFd (child, pipes)

/-- The first slot without a process. -/
def System.freeSlot (s : System) : Option (Fin maxProcesses) :=
  (List.finRange maxProcesses).find? fun i => !(s.processes i).active

/-- The pid of a new process. -/
def System.nextPid (s : System) : ℕ := Finset.univ.sup (fun i => (s.processes i).pid) + 1

/-- A new process in a slot, with its descriptors. -/
def System.create (s : System) (slot : Fin maxProcesses) (p : Process) (t : DescriptorTable)
    (pipes : Pipes) : System :=
  { s with
    processes := Function.update s.processes slot p
    tables := Function.update s.tables slot t
    pipes := pipes
    births := s.births + 1 }

def spawnCurrentWithIo (path : String) (loading : Loading) (io : SpawnIo) (s : System) :
    ℤ × System :=
  if loading = .denied then (-13, s)
  else if loading = .missing then (-2, s)
  else match s.freeSlot with
  | none => (-11, s)
  | some slot =>
    if loading = .refused then (-8, s)
    else
      let pid := s.nextPid
      let (t, pipes) := applySpawnIo .new io (s.tables s.current) s.pipes
      let p := { loadElf pid (path == distroInstall) ⟨path, s.births, s.self.history.birth⟩ with
        uid := s.self.uid
        gid := s.self.gid
        isAdmin := s.self.isAdmin
        username := s.self.username
        parent := s.self.pid }
      (pid, schedule false (s.create slot p t pipes))

def spawnCurrent (path : String) (loading : Loading) (s : System) : ℤ × System :=
  spawnCurrentWithIo path loading ⟨SpawnIo.inherit, SpawnIo.inherit, SpawnIo.inherit⟩ s

/-- `fork_current`, when copying the address space succeeds if `cloned` is set. -/
def forkCurrent (cloned : Bool) (s : System) : ℤ × System :=
  match s.freeSlot with
  | none => (-11, s)
  | some slot =>
    if !cloned then (-12, s)
    else
      let pid := s.nextPid
      let t := s.tables s.current
      let p := { Process.empty with
        pid := pid
        active := true
        parent := s.self.pid
        allowsDiskInstall := s.self.allowsDiskInstall
        uid := s.self.uid
        gid := s.self.gid
        isAdmin := s.self.isAdmin
        username := s.self.username
        signalActions := s.self.signalActions
        signalRestorer := s.self.signalRestorer
        history := ⟨s.self.history.image, s.births, s.self.history.birth⟩ }
      (pid, s.create slot p t (addAll t (List.finRange maxOpenFds) s.pipes))

def execveCurrent (path : String) (loading : Loading) (s : System) : ℤ × System :=
  match loading with
  | .denied => (-13, s)
  | .missing => (-2, s)
  | .refused => (-8, s)
  | .loaded =>
    let replacement := loadElf s.self.pid (path == distroInstall)
      { s.self.history with image := path }
    (0, s.setSelf { replacement with
      parent := s.self.parent
      uid := s.self.uid
      gid := s.self.gid
      isAdmin := s.self.isAdmin
      username := s.self.username
      allowsDiskInstall := s.self.allowsDiskInstall
      signalActions := s.self.signalActions
      signalRestorer := s.self.signalRestorer })

/-! ### Waiting -/

def wnohang (options : ℤ) : Bool := options % 2 ≠ 0

/-- `reap_child`: whether a process is one of those that the parent asked for. -/
def Process.answers (p : Process) (parentPid : ℕ) (wanted : ℤ) : Bool :=
  p.active && p.parent == parentPid && (decide (wanted ≤ 0) || p.pid == wanted.toNat)

/-- The status that is written for the parent. -/
def statusValue (exitStatus : ℤ) : ℤ := exitStatus % 256 * 256

/-- `reap_child`: the pid that was collected, and whether there is a child at all. The status can be
delivered to the caller if there is no pointer, or if `writable` is set. -/
def reapChild (parentPid : ℕ) (wanted : ℤ) (statusPointer : ℕ) (writable : Bool) (s : System) :
    (Option ℕ × Bool) × System :=
  let foundAny := (List.finRange maxProcesses).any fun i => (s.processes i).answers parentPid wanted
  match (List.finRange maxProcesses).find? fun i =>
      (s.processes i).answers parentPid wanted && (s.processes i).zombie with
  | none => ((none, foundAny), s)
  | some child =>
    let childPid := (s.processes child).pid
    if statusPointer ≠ 0 ∧ !writable then ((none, foundAny), s)
    else
      match (List.finRange maxProcesses).find? fun i =>
          (s.processes i).active && (s.processes i).pid == childPid with
      | none => ((some childPid, foundAny), s)
      | some slot => ((some childPid, foundAny), { s with
          processes := Function.update s.processes slot .empty
          collected := s.collected ++ [((s.processes slot).history.birth, s.self.history.birth,
            statusValue (s.processes child).exitStatus)] })

def waitpidCurrent (wanted : ℤ) (statusPointer : ℕ) (writable : Bool) (options : ℤ) (s : System) :
    ℤ × System :=
  match reapChild s.self.pid wanted statusPointer writable s with
  | ((some childPid, _), s) => (childPid, s)
  | ((none, foundAny), s) =>
    if !foundAny then (-10, s)
    else if wnohang options then (0, s)
    else (-11, schedule false (s.setSelf { s.self with
      waitingFor := if 0 < wanted then wanted.toNat else usizeMax }))

/-! ### Identity -/

/-- `authenticate_current`, with the key derivation function of the kernel and what `/etc/users.db`
holds. -/
def authenticateCurrent (pbkdf2 : List UInt8 → List UInt8 → ℕ → Option (List UInt8))
    (database : Option (List UInt8)) (username password : List UInt8) (targetUid : ℕ)
    (s : System) : ℤ × System :=
  if targetUid = 0 ∧ username = s.self.username ∧ s.self.uid ≠ 0 then
    if !s.self.isAdmin ∨ (authenticate pbkdf2 database username password).isNone then (-1, s)
    else (0, s.setSelf { s.self with uid := 0, gid := 0, isAdmin := true, username := rootName })
  else match authenticate pbkdf2 database username password with
  | none => (-1, s)
  | some account =>
    if targetUid ≠ 2 ^ 32 - 1 ∧ account.uid ≠ targetUid then (-1, s)
    else (0, s.setSelf { s.self with
      uid := account.uid
      gid := account.gid
      isAdmin := account.administrator
      username := account.username })

/-! ### Signals -/

/-- The signals, in the order in which `next_pending_signal` looks for them: `SIGNAL_KILL`,
`SIGNAL_STOP`, `SIGNAL_CONT`, `SIGNAL_HUP`, `SIGNAL_INT`, `SIGNAL_SEGV` and `SIGNAL_TERM`. -/
def signals : List (Fin 32) := [9, 19, 18, 1, 2, 11, 15]

def signalKill : Fin 32 := 9

def signalStop : Fin 32 := 19

def signalCont : Fin 32 := 18

def isTerminatingSignal (signal : Fin 32) : Bool := signal ∈ [1, 2, 11, 15]

def validSignal (signal : ℕ) : Option (Fin 32) := signals.find? (·.val = signal)

/-- The bit of a signal. -/
def signalBit (signal : Fin 32) : BitVec 64 := 1#64 <<< signal.val

def nextPendingSignal (pending : BitVec 64) : Option (Fin 32) :=
  signals.find? fun signal => pending &&& signalBit signal ≠ 0

def sendSignal (pid signal : ℕ) (s : System) : ℤ × System :=
  match validSignal signal with
  | none => (-22, s)
  | some signal =>
    match (List.finRange maxProcesses).find? fun i =>
        (s.processes i).active && (s.processes i).pid == pid with
    | none => (-3, s)
    | some i =>
      let p := s.processes i
      if s.self.uid ≠ 0 ∧ s.self.uid ≠ p.uid then (-1, s)
      else if p.pid = 1 then (-1, s)
      else (0, { s with processes := Function.update s.processes i { p with
        pendingSignals := p.pendingSignals ||| signalBit signal
        stopped := p.stopped && !(signal == signalCont || signal == signalKill) } })

/-- `set_signal_action`, when the addresses are mapped if `mapped` is set. -/
def setSignalAction (signal handler restorer : ℕ) (mapped : Bool) (s : System) : ℤ × System :=
  match validSignal signal with
  | none => (-22, s)
  | some signal =>
    if signal = signalKill ∨ signal = signalStop ∨ (handler ≠ signalDefault ∧
        handler ≠ signalIgnore ∧ (restorer = 0 ∨ !mapped)) then (-22, s)
    else (0, s.setSelf { s.self with
      signalActions := Function.update s.self.signalActions signal handler
      signalRestorer := if signalIgnore < handler then restorer else s.self.signalRestorer })

def restoreSignalContext (s : System) : ℤ × System :=
  if s.self.signalFrame then (0, s.setSelf { s.self with signalFrame := false }) else (-22, s)

/-- The signals that are pending, of those that the kernel knows. -/
def pendingList (pending : BitVec 64) : List (Fin 32) :=
  signals.filter fun signal => pending &&& signalBit signal ≠ 0

theorem pendingList_clear {pending : BitVec 64} {signal : Fin 32}
    (h : nextPendingSignal pending = some signal) :
    (pendingList (pending &&& ~~~signalBit signal)).length < (pendingList pending).length := by
  have hmem := List.mem_of_find?_eq_some h
  have hpending := List.find?_some h
  have hfilter : pendingList (pending &&& ~~~signalBit signal) =
      (pendingList pending).filter fun x =>
        pending &&& ~~~signalBit signal &&& signalBit x ≠ 0 := by
    rw [pendingList, pendingList, List.filter_filter]
    refine List.filter_congr fun x _ => ?_
    -- What is pending afterwards was pending before.
    by_cases hx : pending &&& signalBit x = 0#64
    · have hx' : pending &&& ~~~signalBit signal &&& signalBit x = 0#64 := by
        rw [BitVec.and_assoc, BitVec.and_comm (~~~signalBit signal), ← BitVec.and_assoc, hx]
        simp
      simp [hx']
    · simp [hx]
  rw [hfilter, List.length_filter_lt_length_iff_exists]
  refine ⟨signal, List.mem_filter.mpr ⟨hmem, hpending⟩, ?_⟩
  rw [BitVec.and_assoc, BitVec.and_comm (~~~signalBit signal)]
  simp

/-- The signal is not pending any more. -/
def Process.clear (p : Process) (signal : Fin 32) : Process :=
  { p with pendingSignals := p.pendingSignals &&& ~~~signalBit signal }

/-- `deliver_pending_signal`, when the frame for a handler can be written if `writable` is set. -/
def deliverPendingSignal (writable : Bool) (s : System) : System :=
  if !s.self.active then s
  else match _ : nextPendingSignal s.self.pendingSignals with
  | none => s
  | some signal =>
    if s.self.signalFrame ∧ signal ≠ signalKill ∧ signal ≠ signalStop then s
    else
      let p := s.self.clear signal
      let handler := p.signalActions signal
      if handler = signalIgnore ∧ signal ≠ signalKill ∧ signal ≠ signalStop then
        deliverPendingSignal writable (s.setSelf p)
      else if signal = signalKill ∨ (handler = signalDefault ∧ isTerminatingSignal signal) then
        schedule true (s.setSelf p)
      else if signal = signalStop then schedule false (s.setSelf { p with stopped := true })
      else if signal = signalCont ∧ handler ≤ signalIgnore then
        deliverPendingSignal writable (s.setSelf p)
      else if signalIgnore < handler then
        if writable then s.setSelf { p with signalFrame := true }
        else schedule true (s.setSelf p)
      else deliverPendingSignal writable (s.setSelf p)
  termination_by (pendingList s.self.pendingSignals).length
  decreasing_by
    all_goals
      rw [System.self_setSelf]
      exact pendingList_clear ‹_›

/-! ### Time -/

def timerQuantumTicks : ℕ := 10

def anyWaiting (s : System) : Bool :=
  (List.finRange maxProcesses).any fun i =>
    (s.processes i).active && (s.processes i).waitingFor != 0

/-- `timer_tick`, when the process that runs was interrupted outside the kernel if `user` is set. -/
def timerTick (user : Bool) (s : System) : System :=
  if !user ∨ !s.self.active ∨ anyWaiting s ∨
      !((List.finRange maxProcesses).any fun i => i ≠ s.current ∧ (s.processes i).eligible) then s
  else
    let quantum := s.self.quantum + 1
    if quantum < timerQuantumTicks then s.setSelf { s.self with quantum := quantum }
    else schedule false (s.setSelf { s.self with quantum := 0 })

/-! ### Runs -/

/-- System calls that concern processes, with what the rest of the kernel answers. -/
inductive Call
  | yield
  | exit (status : ℤ)
  | authenticate (database : Option (List UInt8)) (username password : List UInt8) (targetUid : ℕ)
  | kill (pid signal : ℕ)
  | sigaction (signal handler restorer : ℕ) (mapped : Bool)
  | sigreturn
  | exec (path : String) (loading : Loading)
  | execve (path : String) (loading : Loading)
  | spawn (path : String) (loading : Loading) (io : SpawnIo)
  | fork (cloned : Bool)
  | waitpid (wanted : ℤ) (statusPointer : ℕ) (writable : Bool) (options : ℤ)
  | open
  | close (fd : ℕ)
  | dup (fd : ℕ)
  | dup2 (source target : ℕ)
  | pipe (copied : Bool)

/-- What happens to the process that runs: a system call, after which its signals are delivered, a
tick of the timer, or a fault. -/
inductive Event
  | call (c : Call) (writable : Bool)
  | tick (user : Bool)
  | fault

section Run

variable (pbkdf2 : List UInt8 → List UInt8 → ℕ → Option (List UInt8))

/-- `syscall_dispatch_inner` -/
def dispatch (c : Call) (s : System) : System :=
  match c with
  | .yield => schedule false s
  | .exit status => schedule true (s.setSelf { s.self with exitStatus := status })
  | .authenticate database username password targetUid =>
    (authenticateCurrent pbkdf2 database username password targetUid s).2
  | .kill pid signal => (sendSignal pid signal s).2
  | .sigaction signal handler restorer mapped =>
      (setSignalAction signal handler restorer mapped s).2
  | .sigreturn => (restoreSignalContext s).2
  | .exec path loading => (spawnCurrent path loading s).2
  | .execve path loading => (execveCurrent path loading s).2
  | .spawn path loading io => (spawnCurrentWithIo path loading io s).2
  | .fork cloned => (forkCurrent cloned s).2
  | .waitpid wanted statusPointer writable options =>
    (waitpidCurrent wanted statusPointer writable options s).2
  | .open => (allocateDescriptor (.new .file) s).2
  | .close fd => (closeDescriptor fd s).2
  | .dup fd => (duplicateDescriptor fd s).2
  | .dup2 source target => (duplicateDescriptorTo source target s).2
  | .pipe copied => (createPipe copied s).2

/-- One event. -/
def step (e : Event) (s : System) : System :=
  match e with
  | .call c writable =>
    let s := dispatch pbkdf2 c s
    if s.halted then s else deliverPendingSignal writable s
  | .tick user => timerTick user s
  | .fault => schedule true s

/-- `init`: the first process runs. -/
def System.boot : System where
  processes i := if i = 0 then loadElf 1 false ⟨"/sbin/init", 0, 0⟩ else .empty
  current := 0
  tables := fun _ => .new
  pipes := fun _ => .empty
  halted := false
  births := 1
  collected := []

/-- The states that runs reach, when every event is an allowed one in the state before it. -/
inductive Run (allowed : Event → System → Prop) : System → Prop
  | boot : Run allowed .boot
  | step {s : System} (h : Run allowed s) (e : Event) (hrun : s.halted = false)
      (ha : allowed e s) : Run allowed (step pbkdf2 e s)

/-- What calls do one after another, when no signals are pending. -/
def dispatchAll : List Call → System → System
  | [], s => s
  | c :: rest, s => dispatchAll rest (dispatch pbkdf2 c s)

/-- The system runs, and no signals are pending after each of the calls. -/
def quiet : List Call → System → Bool
  | [], _ => true
  | c :: rest, s =>
    let s' := dispatch pbkdf2 c s
    !s.halted && (nextPendingSignal s'.self.pendingSignals).isNone && quiet rest s'

end Run

section Quiet

variable {pbkdf2 : List UInt8 → List UInt8 → ℕ → Option (List UInt8)}

theorem deliverPendingSignal_idle {s : System} (writable : Bool)
    (h : nextPendingSignal s.self.pendingSignals = none) : deliverPendingSignal writable s = s := by
  rw [deliverPendingSignal]
  split
  · rfl
  split
  · rfl
  · rename_i signal hsignal
    exact absurd (h.symm.trans hsignal) (by simp)

theorem step_call_idle {c : Call} {w : Bool} {s : System}
    (h : nextPendingSignal (dispatch pbkdf2 c s).self.pendingSignals = none) :
    step pbkdf2 (.call c w) s = dispatch pbkdf2 c s := by
  rw [step]
  split
  · rfl
  · exact deliverPendingSignal_idle w h

theorem Run.dispatchAll {allowed : Event → System → Prop} {calls : List Call} {s : System}
    (h : Run pbkdf2 allowed s) (hallowed : ∀ c ∈ calls, ∀ s, allowed (.call c true) s)
    (hquiet : quiet pbkdf2 calls s = true) :
    Run pbkdf2 allowed (dispatchAll pbkdf2 calls s) := by
  induction calls generalizing s with
  | nil => exact h
  | cons c rest ih =>
    simp only [quiet, Bool.and_eq_true, Bool.not_eq_true', Option.isNone_iff_eq_none] at hquiet
    obtain ⟨⟨hrun, hidle⟩, hrest⟩ := hquiet
    have hstep := Run.step h (.call c true) hrun (hallowed c List.mem_cons_self s)
    rw [step_call_idle hidle] at hstep
    exact ih hstep (fun c hc => hallowed c (List.mem_cons_of_mem _ hc)) hrest

end Quiet

end ImagineOS.Exec
