import ImagineOS.Exec.Fork

/-!
# Processes: the frames that handlers interrupt

A handler should be transparent: when it ends with `sigreturn`, the process goes on with the
registers that it was interrupted with. The kernel saves them in the slot of the process when it
enters the handler. A copy made by `fork` within a handler does not get them, so that its
`sigreturn` fails (`forked_handler_is_stuck`). In runs without such a `fork` handlers are
transparent.
-/

namespace ImagineOS.Exec

open Function

/-- The processes, and the registers that they go on with. -/
structure Contexts where
  sys : System
  /-- What `frame` points to. -/
  frames : Fin maxProcesses → TrapFrame
  /-- The frame in `signal_frame`, if one is there. -/
  saved : Fin maxProcesses → TrapFrame
  /-- The frames that the handlers interrupted which a process is executing, the last one first. The
  source has no such field. -/
  interrupted : Fin maxProcesses → List TrapFrame

namespace Contexts

/-- The registers of the process that runs. -/
def frame (x : Contexts) : TrapFrame := x.frames x.sys.current

/-- The process that runs enters the kernel with these registers. -/
def trap (frame : TrapFrame) (x : Contexts) : Contexts :=
  { x with frames := Function.update x.frames x.sys.current frame }

/-- The slot of the stack where the return address of a handler goes. -/
def stackSlot (frame : TrapFrame) : BitVec 64 := (frame.rsp &&& ~~~0xf#64) - 8#64

/-- Whether the return address can be written, when the address space maps these addresses. -/
def canEnter (mapped : BitVec 64 → Bool) (frame : TrapFrame) : Bool :=
  8 ≤ (frame.rsp &&& ~~~0xf#64).toNat && mapped (stackSlot frame)

/-- The handler of a signal is entered: the frame is saved, and changed. -/
def enter (p : Process) (signal : Fin 32) (x : Contexts) : Contexts where
  sys := x.sys.setSelf { p with signalFrame := true }
  frames := Function.update x.frames x.sys.current { x.frame with
    rip := BitVec.ofNat 64 (p.signalActions signal)
    rdi := BitVec.ofNat 64 signal.val
    rsp := stackSlot x.frame }
  saved := Function.update x.saved x.sys.current x.frame
  interrupted := Function.update x.interrupted x.sys.current
    (x.frame :: x.interrupted x.sys.current)

/-- `deliver_pending_signal`, when the address space maps these addresses. -/
def deliver (mapped : BitVec 64 → Bool) (x : Contexts) : Contexts :=
  if !x.sys.self.active then x
  else match _ : nextPendingSignal x.sys.self.pendingSignals with
  | none => x
  | some signal =>
    if x.sys.self.signalFrame ∧ signal ≠ signalKill ∧ signal ≠ signalStop then x
    else
      let p := x.sys.self.clear signal
      let handler := p.signalActions signal
      if handler = signalIgnore ∧ signal ≠ signalKill ∧ signal ≠ signalStop then
        deliver mapped { x with sys := x.sys.setSelf p }
      else if signal = signalKill ∨ (handler = signalDefault ∧ isTerminatingSignal signal) then
        { x with sys := schedule true (x.sys.setSelf p) }
      else if signal = signalStop then
        { x with sys := schedule false (x.sys.setSelf { p with stopped := true }) }
      else if signal = signalCont ∧ handler ≤ signalIgnore then
        deliver mapped { x with sys := x.sys.setSelf p }
      else if signalIgnore < handler then
        if canEnter mapped x.frame then x.enter p signal
        else { x with sys := schedule true (x.sys.setSelf p) }
      else deliver mapped { x with sys := x.sys.setSelf p }
  termination_by (pendingList x.sys.self.pendingSignals).length
  decreasing_by
    all_goals
      rw [System.self_setSelf]
      exact pendingList_clear ‹_›

section Dispatch

variable (pbkdf2 : List UInt8 → List UInt8 → ℕ → Option (List UInt8))

/-- What a call puts into `rax`, if it answers at all. -/
def answerTo (c : Call) (s : System) : Option ℤ :=
  match c with
  | .yield => some 0
  | .exit _ => none
  | .authenticate database username password targetUid =>
    some (authenticateCurrent pbkdf2 database username password targetUid s).1
  | .kill pid signal => some (sendSignal pid signal s).1
  | .sigaction signal handler restorer mapped =>
    some (setSignalAction signal handler restorer mapped s).1
  | .sigreturn => if s.self.signalFrame then none else some (-22)
  | .exec path loading => some (spawnCurrent path loading s).1
  | .execve path loading =>
    if loading = .loaded then none else some (execveCurrent path loading s).1
  | .spawn path loading io => some (spawnCurrentWithIo path loading io s).1
  | .fork cloned => some (forkCurrent cloned s).1
  | .waitpid wanted statusPointer writable options =>
    some (waitpidCurrent wanted statusPointer writable options s).1
  | .open => some ((allocateDescriptor (.new .file) s).1.elim (-24) fun fd => (fd.val : ℤ))
  | .close fd => some (if (closeDescriptor fd s).1 then 0 else -9)
  | .dup fd => some (match (duplicateDescriptor fd s).1 with
    | .ok fd => fd
    | .error e => e)
  | .dup2 source target => some (match (duplicateDescriptorTo source target s).1 with
    | .ok fd => fd
    | .error e => e)
  | .pipe copied => some (createPipe copied s).1

/-- The slot of the process that a call creates. -/
def newSlot (c : Call) (s : System) : Option (Fin maxProcesses) :=
  match c with
  | .exec path loading => if 0 < (spawnCurrent path loading s).1 then s.freeSlot else none
  | .spawn path loading io =>
    if 0 < (spawnCurrentWithIo path loading io s).1 then s.freeSlot else none
  | .fork cloned => if 0 < (forkCurrent cloned s).1 then s.freeSlot else none
  | _ => none

/-- The registers of the caller after a call, when a program that is loaded starts with the
registers `entry`. -/
def ownFrame (c : Call) (entry : TrapFrame) (x : Contexts) : TrapFrame :=
  match answerTo pbkdf2 c x.sys with
  | some value => { x.frame with rax := BitVec.ofInt 64 value }
  | none =>
    match c with
    | .sigreturn => x.saved x.sys.current
    | .execve .. => entry
    | _ => x.frame

/-- The registers of a process that a call creates. -/
def newFrame (c : Call) (entry : TrapFrame) (x : Contexts) : TrapFrame :=
  match c with
  | .fork _ => { x.frame with rax := 0 }
  | _ => entry

/-- The handlers that the caller is in after a call. -/
def ownInterrupted (c : Call) (x : Contexts) : List TrapFrame :=
  match c with
  | .sigreturn =>
    if x.sys.self.signalFrame then (x.interrupted x.sys.current).tail
    else x.interrupted x.sys.current
  | .execve _ loading => if loading = .loaded then [] else x.interrupted x.sys.current
  | _ => x.interrupted x.sys.current

/-- The handlers that a new process is in. -/
def newInterrupted (c : Call) (x : Contexts) : List TrapFrame :=
  match c with
  | .fork _ => x.interrupted x.sys.current
  | _ => []

/-- `syscall_dispatch_inner` -/
def dispatch (c : Call) (entry : TrapFrame) (x : Contexts) : Contexts where
  sys := Exec.dispatch pbkdf2 c x.sys
  frames :=
    let frames := Function.update x.frames x.sys.current (ownFrame pbkdf2 c entry x)
    (newSlot c x.sys).elim frames fun slot => Function.update frames slot (newFrame c entry x)
  saved := x.saved
  interrupted :=
    let interrupted := Function.update x.interrupted x.sys.current (ownInterrupted c x)
    (newSlot c x.sys).elim interrupted fun slot =>
      Function.update interrupted slot (newInterrupted c x)

/-- Why the kernel is entered. -/
inductive Trap
  /-- A call that concerns processes. -/
  | call (c : Call) (entry : TrapFrame) (mapped : BitVec 64 → Bool)
  /-- Another call, with its answer. -/
  | other (value : BitVec 64) (mapped : BitVec 64 → Bool)
  | tick
  | fault

/-- The process that runs enters the kernel, with any registers. -/
def next (t : Trap) (frame : TrapFrame) (x : Contexts) : Contexts :=
  match t with
  | .call c entry mapped =>
    let x := (x.trap frame).dispatch pbkdf2 c entry
    if x.sys.halted then x else x.deliver mapped
  | .other value mapped => (x.trap { frame with rax := value }).deliver mapped
  | .tick =>
    -- An interrupt within the kernel has a frame of its own.
    let user := frame.cs &&& 3#64 == 3#64
    { (if user then x.trap frame else x) with sys := timerTick user x.sys }
  | .fault => { x with sys := schedule true x.sys }

/-- `init`: no handler runs. -/
def boot (frames saved : Fin maxProcesses → TrapFrame) : Contexts :=
  ⟨.boot, frames, saved, fun _ => []⟩

/-- The states that runs reach, when every trap satisfies a condition in the state before it. -/
inductive Reaches (allowed : Contexts → Trap → Prop) : Contexts → Prop
  | boot (frames saved : Fin maxProcesses → TrapFrame) : Reaches allowed (boot frames saved)
  | next {x : Contexts} (h : Reaches allowed x) (t : Trap) (frame : TrapFrame)
      (hrun : x.sys.halted = false) (ha : allowed x t) : Reaches allowed (x.next pbkdf2 t frame)

/-- A process goes on with these registers in these handlers, or the handler of another signal
interrupts them. -/
def GoesOn (x : Contexts) (i : Fin maxProcesses) (f : TrapFrame) (outer : List TrapFrame) : Prop :=
  x.frames i = f ∧ x.interrupted i = outer ∨ x.interrupted i = f :: outer

/-- **Handlers are transparent**: in a handler, `sigreturn` leaves it, and gives the process the
registers that were interrupted, whatever the registers are that it is called with. After the call
the process goes on with them. -/
def Transparent (x : Contexts) : Prop :=
  x.sys.halted = false → ∀ (f : TrapFrame) (outer : List TrapFrame),
    x.interrupted x.sys.current = f :: outer → ∀ frame entry mapped,
      ((x.trap frame).dispatch pbkdf2 .sigreturn entry).frame = f ∧
      ((x.trap frame).dispatch pbkdf2 .sigreturn entry).interrupted x.sys.current = outer ∧
      (x.next pbkdf2 (.call .sigreturn entry mapped) frame).GoesOn x.sys.current f outer

end Dispatch

/-- **The condition**: no process within a handler makes a copy of itself, when there is a slot and
the address space can be copied. -/
def ForksOutside (x : Contexts) : Trap → Prop
  | .call (.fork cloned) _ _ =>
    cloned = true → x.sys.freeSlot ≠ none → x.interrupted x.sys.current = []
  | _ => True

end Contexts

/-! ### Which frames are saved -/

/-- Processes come to be neither there nor within a handler, and whoever stays there stays within
its handler. -/
def KeepsFrames (s s' : System) : Prop :=
  ∀ i, (s'.processes i).active = true → (s.processes i).active = true ∧
    (s'.processes i).signalFrame = (s.processes i).signalFrame

/-- A call that neither leaves handlers nor makes processes. -/
def Call.keepsFrames : Call → Bool
  | .sigreturn | .exec .. | .execve .. | .spawn .. | .fork _ => false
  | _ => true

section Keeps

variable {pbkdf2 : List UInt8 → List UInt8 → ℕ → Option (List UInt8)} {s s' s'' : System}

namespace KeepsFrames

theorem of_eq (h : s'.processes = s.processes) : KeepsFrames s s' := by
  intro i hi
  rw [h] at hi ⊢
  exact ⟨hi, rfl⟩

theorem refl (s : System) : KeepsFrames s s := .of_eq rfl

theorem trans (h : KeepsFrames s s') (h' : KeepsFrames s' s'') : KeepsFrames s s'' := by
  intro i hi
  obtain ⟨hi', hframe'⟩ := h' i hi
  obtain ⟨hi, hframe⟩ := h i hi'
  exact ⟨hi, hframe'.trans hframe⟩

variable {p : Process}

theorem update {i : Fin maxProcesses} (hprocesses : s'.processes =
    Function.update s.processes i p) (h : p.active = true → (s.processes i).active = true ∧
      p.signalFrame = (s.processes i).signalFrame) : KeepsFrames s s' := by
  intro j hj
  rw [hprocesses] at hj ⊢
  by_cases hji : j = i
  · subst hji
    rw [update_self] at hj ⊢
    exact h hj
  · rw [update_of_ne hji] at hj ⊢
    exact ⟨hj, rfl⟩

theorem setSelf (hactive : p.active = s.self.active)
    (hframe : p.signalFrame = s.self.signalFrame) : KeepsFrames s (s.setSelf p) :=
  .update rfl fun hp => ⟨hactive.symm.trans hp, hframe⟩

theorem finish (s : System) : KeepsFrames s s.finish := by
  have hself : KeepsFrames s (s.setSelf { s.self with
    zombie := true, stopped := false, waitingFor := 0 }) := .setSelf rfl rfl
  refine hself.trans fun i hi => ?_
  simp only [System.finish, System.setSelf] at hi ⊢
  split at hi <;> exact ⟨hi, by split <;> rfl⟩

theorem schedule (exiting : Bool) (s : System) : KeepsFrames s (Exec.schedule exiting s) := by
  have hbefore : KeepsFrames s (if exiting then s.finish else s) := by
    cases exiting with
    | false => exact .refl s
    | true => exact .finish s
  refine hbefore.trans (.of_eq ?_)
  unfold Exec.schedule
  dsimp only
  split <;> rfl

theorem schedule_setSelf (exiting : Bool) (hactive : p.active = s.self.active)
    (hframe : p.signalFrame = s.self.signalFrame) :
    KeepsFrames s (Exec.schedule exiting (s.setSelf p)) :=
  (setSelf hactive hframe).trans (.schedule exiting _)

theorem timerTick (user : Bool) (s : System) : KeepsFrames s (Exec.timerTick user s) := by
  rw [Exec.timerTick]
  split
  · exact .refl s
  dsimp only
  split
  · exact .setSelf rfl rfl
  · exact .schedule_setSelf false rfl rfl

/-- **Most calls** neither leave handlers nor make processes. -/
theorem dispatch {c : Call} (hc : c.keepsFrames = true) (s : System) :
    KeepsFrames s (Exec.dispatch pbkdf2 c s) := by
  have h : Dispatched pbkdf2 s c (Exec.dispatch pbkdf2 c s) := dispatched c s
  generalize Exec.dispatch pbkdf2 c s = s' at h
  cases h with
  | nothing => exact .refl s
  | descriptors _ honly =>
    obtain ⟨t, pipes, rfl⟩ := honly
    exact .of_eq rfl
  | yields => exact .schedule false s
  | exits status => exact .schedule_setSelf true rfl rfl
  | elevated | identified | handles => exact .setSelf rfl rfl
  | sent => exact .update rfl fun hp => ⟨hp, rfl⟩
  | returns | replaced | forked => cases hc
  | spawned hspawn => rcases hspawn with rfl | rfl <;> cases hc
  | blocked => exact .schedule_setSelf false rfl rfl
  | collected => exact .update rfl fun hp => by cases hp

end KeepsFrames

/-- Making a process fails, or one is made, which is not within a handler. -/
def Makes (s : System) (result : ℤ × System) : Prop :=
  (result.1 ≤ 0 ∧ result.2 = s) ∨ ∃ slot p t pipes, s.freeSlot = some slot ∧ 0 < result.1 ∧
    p.signalFrame = false ∧ KeepsFrames (s.create slot p t pipes) result.2

theorem spawnCurrentWithIo_makes (path : String) (loading : Loading) (io : SpawnIo) (s : System) :
    Makes s (spawnCurrentWithIo path loading io s) := by
  refine (spawnCurrentWithIo_created path loading io s).imp_right ?_
  rintro ⟨slot, hslot, -, heq⟩
  rw [heq]
  exact ⟨slot, _, _, _, hslot, by simp [System.nextPid], rfl, .schedule false _⟩

theorem forkCurrent_makes (cloned : Bool) (s : System) : Makes s (forkCurrent cloned s) := by
  refine (forkCurrent_created cloned s).imp_right ?_
  rintro ⟨slot, hslot, -, heq⟩
  rw [heq]
  exact ⟨slot, _, _, _, hslot, by simp [System.nextPid], rfl, .refl _⟩

end Keeps

namespace Contexts

variable {pbkdf2 : List UInt8 → List UInt8 → ℕ → Option (List UInt8)} {x y : Contexts}
  {mapped : BitVec 64 → Bool} {i : Fin maxProcesses}

/-! ### The way out -/

/-- What the way out of the kernel does. -/
inductive Delivers : Contexts → Contexts → Prop
  | refl (x : Contexts) : Delivers x x
  /-- A signal is dropped, and the next one is looked at. -/
  | drops {x y : Contexts} (signal : Fin 32)
      (h : Delivers { x with sys := x.sys.setSelf (x.sys.self.clear signal) } y) : Delivers x y
  /-- The process ends or is stopped. -/
  | leaves {x : Contexts} (exiting : Bool) {p : Process} (hactive : p.active = x.sys.self.active)
      (hframe : p.signalFrame = x.sys.self.signalFrame) :
      Delivers x { x with sys := schedule exiting (x.sys.setSelf p) }
  /-- A handler is entered. -/
  | enters {x : Contexts} {p : Process} (signal : Fin 32) (hactive : x.sys.self.active = true)
      (hp : p.active = true) (hframe : x.sys.self.signalFrame = false) :
      Delivers x (x.enter p signal)

/-- **What `deliver_pending_signal` does.** -/
theorem deliver_delivers (mapped : BitVec 64 → Bool) (x : Contexts) :
    Delivers x (x.deliver mapped) := by
  induction hn : (pendingList x.sys.self.pendingSignals).length using Nat.strong_induction_on
    generalizing x with
  | _ n ih =>
    subst hn
    rw [deliver]
    split
    · exact .refl x
    rename_i hactive
    rw [Bool.not_eq_true', Bool.not_eq_false] at hactive
    split
    · exact .refl x
    rename_i signal hsignal
    split
    · exact .refl x
    rename_i hframe
    dsimp only
    have hloop := Delivers.drops signal (ih _ (by
      rw [System.self_setSelf]
      exact pendingList_clear hsignal) _ rfl)
    split
    · exact hloop
    split
    · exact .leaves true rfl rfl
    rename_i hkill
    split
    · exact .leaves false rfl rfl
    rename_i hstop
    split
    · exact hloop
    split
    · split
      · -- Within a handler, only the other two signals are delivered.
        refine .enters signal hactive hactive (Bool.eq_false_iff.mpr fun h => hframe ⟨h, ?_, hstop⟩)
        exact fun hsignal => hkill (Or.inl hsignal)
      · exact .leaves true rfl rfl
    · exact hloop

theorem deliver_sys (mapped : BitVec 64 → Bool) (x : Contexts) :
    (x.deliver mapped).sys = deliverPendingSignal (canEnter mapped x.frame) x.sys := by
  induction hn : (pendingList x.sys.self.pendingSignals).length using Nat.strong_induction_on
    generalizing x with
  | _ n ih =>
    subst hn
    rw [deliver, deliverPendingSignal]
    split
    · rfl
    generalize hnext : nextPendingSignal x.sys.self.pendingSignals = next
    cases next with
    | none => rfl
    | some signal =>
      dsimp only
      split
      · rfl
      have hloop := ih _ (by
        rw [System.self_setSelf]
        exact pendingList_clear hnext)
        { x with sys := x.sys.setSelf (x.sys.self.clear signal) } rfl
      split
      · exact hloop
      split
      · rfl
      split
      · rfl
      split
      · exact hloop
      split
      · split <;> rfl
      · exact hloop

/-- **On the way out**, every process goes on with its registers. -/
theorem goesOn_deliver (mapped : BitVec 64 → Bool) (x : Contexts) (i : Fin maxProcesses) :
    (x.deliver mapped).GoesOn i (x.frames i) (x.interrupted i) := by
  have h := deliver_delivers mapped x
  generalize x.deliver mapped = y at h
  induction h with
  | refl | leaves => exact Or.inl ⟨rfl, rfl⟩
  | drops _ _ ih => exact ih
  | @enters x p signal _ _ _ =>
    by_cases hi : i = x.sys.current
    · subst hi
      exact Or.inr (update_self _ _ _)
    · exact Or.inl ⟨Function.update_of_ne hi _ _, update_of_ne hi _ _⟩

/-! ### Runs -/

/-- **The invariant of runs**: whoever is within a handler has the interrupted frame saved. -/
def Accounted (x : Contexts) : Prop :=
  ∀ i, (x.sys.processes i).active = true →
    x.interrupted i = if (x.sys.processes i).signalFrame then [x.saved i] else []

theorem Accounted.keeps (h : x.Accounted) (hsys : KeepsFrames x.sys y.sys)
    (hsaved : y.saved = x.saved) (hinterrupted : y.interrupted = x.interrupted) :
    y.Accounted := by
  intro i hi
  obtain ⟨hi', hframe⟩ := hsys i hi
  rw [hsaved, hinterrupted, hframe]
  exact h i hi'

theorem Accounted.update (h : x.Accounted) {p : Process} {f : TrapFrame} {l : List TrapFrame}
    (hsys : y.sys.processes = Function.update x.sys.processes i p)
    (hsaved : y.saved = Function.update x.saved i f)
    (hinterrupted : y.interrupted = Function.update x.interrupted i l)
    (hp : l = if p.signalFrame then [f] else []) : y.Accounted := by
  intro j hj
  rw [hsys] at hj ⊢
  rw [hsaved, hinterrupted]
  by_cases hji : j = i
  · subst hji
    simpa only [update_self] using hp
  · simp only [update_of_ne hji] at hj ⊢
    exact h j hj

theorem Accounted.clears (h : x.Accounted) {p : Process} (hp : p.signalFrame = false)
    (hsys : y.sys.processes = Function.update x.sys.processes i p) (hsaved : y.saved = x.saved)
    (hinterrupted : y.interrupted = Function.update x.interrupted i []) : y.Accounted := by
  refine h.update (f := x.saved i) hsys ?_ hinterrupted ?_
  · rw [hsaved, update_eq_self]
  · rw [hp]
    rfl

theorem Accounted.enter (h : x.Accounted) {p : Process} (signal : Fin 32)
    (hactive : x.sys.self.active = true) (hframe : x.sys.self.signalFrame = false) :
    (x.enter p signal).Accounted := by
  refine h.update rfl rfl rfl ?_
  have hself : x.interrupted x.sys.current = if x.sys.self.signalFrame then
    [x.saved x.sys.current] else [] := h x.sys.current hactive
  rw [hself, hframe]
  rfl

theorem Accounted.deliver (h : x.Accounted) (mapped : BitVec 64 → Bool) :
    (x.deliver mapped).Accounted := by
  have hdelivers := deliver_delivers mapped x
  generalize x.deliver mapped = y at hdelivers
  induction hdelivers with
  | refl => exact h
  | drops _ _ ih => exact ih (h.keeps (.setSelf rfl rfl) rfl rfl)
  | leaves exiting hactive hframe =>
    exact h.keeps (.schedule_setSelf exiting hactive hframe) rfl rfl
  | enters signal hactive _ hframe => exact h.enter signal hactive hframe

theorem Accounted.makes (h : x.Accounted) {result : ℤ × System} {l : List TrapFrame}
    (hmakes : Makes x.sys result) (hsys : y.sys = result.2) (hsaved : y.saved = x.saved)
    (hinterrupted : y.interrupted = (if 0 < result.1 then x.sys.freeSlot else none).elim
      x.interrupted fun slot => Function.update x.interrupted slot l)
    (hinner : 0 < result.1 → l = []) : y.Accounted := by
  rcases hmakes with ⟨hfailed, hstate⟩ | ⟨slot, p, t, pipes, hslot, hpos, hp, hkeeps⟩
  · rw [if_neg hfailed.not_gt] at hinterrupted
    refine h.keeps (.of_eq ?_) hsaved hinterrupted
    rw [hsys, hstate]
  · rw [if_pos hpos, hslot, hinner hpos] at hinterrupted
    have hmade : Accounted ⟨x.sys.create slot p t pipes, y.frames, y.saved, y.interrupted⟩ :=
      h.clears hp rfl hsaved hinterrupted
    refine hmade.keeps ?_ rfl rfl
    rw [hsys]
    exact hkeeps

variable {c : Call}

theorem interrupted_dispatch (entry : TrapFrame) (hnew : newSlot c x.sys = none)
    (hown : ownInterrupted c x = x.interrupted x.sys.current) :
    (x.dispatch pbkdf2 c entry).interrupted = x.interrupted := by
  simp only [dispatch, hnew, hown, update_eq_self, Option.elim_none]

/-- **What a call does.** -/
theorem Accounted.dispatch (h : x.Accounted) (hactive : x.sys.self.active = true)
    {entry : TrapFrame} (hforks : x.ForksOutside (.call c entry mapped)) :
    (x.dispatch pbkdf2 c entry).Accounted := by
  have hself : x.interrupted x.sys.current = if x.sys.self.signalFrame then
    [x.saved x.sys.current] else [] := h x.sys.current hactive
  cases hc : c.keepsFrames with
  | true =>
    refine h.keeps (.dispatch hc x.sys) rfl (interrupted_dispatch entry ?_ ?_) <;>
      cases c <;> first | rfl | cases hc
  | false =>
    cases c with
    | sigreturn =>
      by_cases hframe : x.sys.self.signalFrame = true
      · refine h.clears (i := x.sys.current) (p := { x.sys.self with signalFrame := false })
          rfl ?_ rfl ?_
        · simp only [Contexts.dispatch, Exec.dispatch, restoreSignalContext, if_pos hframe]
          rfl
        · show Function.update x.interrupted x.sys.current (ownInterrupted .sigreturn x) = _
          rw [ownInterrupted, if_pos hframe, hself, if_pos hframe]
          rfl
      · refine h.keeps ?_ rfl (interrupted_dispatch entry rfl (if_neg hframe))
        simp only [Contexts.dispatch, Exec.dispatch, restoreSignalContext, if_neg hframe]
        exact .refl x.sys
    | execve path loading =>
      cases loading with
      | denied | missing | refused =>
        exact h.keeps (.refl x.sys) rfl (interrupted_dispatch entry rfl rfl)
      | loaded => exact h.clears rfl rfl rfl rfl
    | exec path loading =>
      refine h.makes (l := []) (spawnCurrentWithIo_makes path loading _ x.sys) rfl rfl ?_
        fun _ => rfl
      simp only [Contexts.dispatch, ownInterrupted, Function.update_eq_self]
      rfl
    | spawn path loading io =>
      refine h.makes (l := []) (spawnCurrentWithIo_makes path loading io x.sys) rfl rfl ?_
        fun _ => rfl
      simp only [Contexts.dispatch, ownInterrupted, Function.update_eq_self]
      rfl
    | fork cloned =>
      refine h.makes (l := x.interrupted x.sys.current) (forkCurrent_makes cloned x.sys)
        rfl rfl ?_ fun hpos => ?_
      · simp only [Contexts.dispatch, ownInterrupted, Function.update_eq_self]
        rfl
      · rcases forkCurrent_copied cloned x.sys with ⟨hle, -⟩ | ⟨slot, hslot, hcloned, -⟩
        · exact absurd hpos hle.not_gt
        · exact hforks hcloned (by simp [hslot])
    | _ => cases hc

/-- **One trap** keeps the invariant. -/
theorem Accounted.next (h : x.Accounted) (hactive : x.sys.self.active = true) {t : Trap}
    {frame : TrapFrame} (hforks : x.ForksOutside t) : (x.next pbkdf2 t frame).Accounted := by
  have htrap : ∀ frame, (x.trap frame).Accounted := fun frame => h.keeps (.refl x.sys) rfl rfl
  cases t with
  | call c entry mapped =>
    have hdispatch : ((x.trap frame).dispatch pbkdf2 c entry).Accounted :=
      (htrap frame).dispatch hactive hforks
    rw [Contexts.next]
    split
    · exact hdispatch
    · exact hdispatch.deliver mapped
  | other value mapped => exact (htrap _).deliver mapped
  | tick =>
    refine h.keeps (.timerTick (frame.cs &&& 3#64 == 3#64) x.sys) ?_ ?_ <;>
      rw [Contexts.next] <;> split <;> rfl
  | fault => exact h.keeps (.schedule true x.sys) rfl rfl

variable (pbkdf2) in
/-- **The tables are those of an event**, or of the way out of a call that does nothing to them. -/
theorem next_sys (t : Trap) (frame : TrapFrame) (x : Contexts) :
    (∃ e, (x.next pbkdf2 t frame).sys = step pbkdf2 e x.sys) ∨
      ∃ w, (x.next pbkdf2 t frame).sys = deliverPendingSignal w x.sys := by
  cases t with
  | call c entry mapped =>
    refine Or.inl ⟨.call c (canEnter mapped ((x.trap frame).dispatch pbkdf2 c entry).frame), ?_⟩
    rw [Contexts.next, step]
    show (if (Exec.dispatch pbkdf2 c x.sys).halted then (x.trap frame).dispatch pbkdf2 c entry
      else _).sys = _
    split
    · rfl
    · exact deliver_sys mapped _
  | other value mapped => exact Or.inr ⟨_, deliver_sys mapped _⟩
  | tick => exact Or.inl ⟨.tick (frame.cs &&& 3#64 == 3#64), rfl⟩
  | fault => exact Or.inl ⟨.fault, rfl⟩

theorem goesOn_next_call (entry frame : TrapFrame) (mapped : BitVec 64 → Bool)
    (i : Fin maxProcesses) :
    (x.next pbkdf2 (.call c entry mapped) frame).GoesOn i
      (((x.trap frame).dispatch pbkdf2 c entry).frames i)
      (((x.trap frame).dispatch pbkdf2 c entry).interrupted i) := by
  rw [Contexts.next]
  split
  · exact Or.inl ⟨rfl, rfl⟩
  · exact goesOn_deliver mapped _ i

theorem Reaches.sound {allowed : Contexts → Trap → Prop} (h : Reaches pbkdf2 allowed x) :
    Sound x.sys := by
  induction h with
  | boot => exact boot_sound
  | @next x _ t frame hrun _ ih =>
    rcases next_sys pbkdf2 t frame x with ⟨e, heq⟩ | ⟨w, heq⟩ <;> rw [heq]
    · exact ih.step hrun e
    · exact (deliverPendingSignal_spec w _).sound ih

theorem Reaches.accounted (h : Reaches pbkdf2 ForksOutside x) : x.Accounted := by
  induction h with
  | boot frames saved =>
    intro i _
    have hframe : (System.boot.processes i).signalFrame = false := by
      by_cases hi : i = 0 <;> simp [System.boot, hi, loadElf, Process.empty]
    show [] = if (System.boot.processes i).signalFrame then [saved i] else []
    rw [hframe]
    rfl
  | next h t frame hrun hforks ih => exact ih.next (h.sound.runs hrun).1 hforks

/-- `sigreturn` within a handler. -/
theorem dispatch_sigreturn (entry : TrapFrame) (hframe : x.sys.self.signalFrame = true) :
    (x.dispatch pbkdf2 .sigreturn entry).sys.current = x.sys.current ∧
    (x.dispatch pbkdf2 .sigreturn entry).frames x.sys.current = x.saved x.sys.current ∧
    (x.dispatch pbkdf2 .sigreturn entry).interrupted x.sys.current =
      (x.interrupted x.sys.current).tail := by
  refine ⟨?_, ?_, ?_⟩
  · simp only [dispatch, Exec.dispatch, restoreSignalContext, if_pos hframe]
    rfl
  · simp only [dispatch, newSlot, Option.elim_none, update_self, ownFrame, answerTo, if_pos hframe]
  · simp only [dispatch, newSlot, Option.elim_none, update_self, ownInterrupted, if_pos hframe]

/-- **Headline.** In every run in which no process within a handler makes a copy of itself, handlers
are transparent. -/
theorem handlers_transparent (h : Reaches pbkdf2 ForksOutside x) : x.Transparent pbkdf2 := by
  intro hrun f outer hinterrupted frame entry mapped
  have hself : x.interrupted x.sys.current = if x.sys.self.signalFrame then
    [x.saved x.sys.current] else [] := h.accounted x.sys.current (h.sound.runs hrun).1
  rw [hinterrupted] at hself
  have hframe : x.sys.self.signalFrame = true := by
    by_contra hframe
    rw [if_neg hframe] at hself
    cases hself
  rw [if_pos hframe] at hself
  obtain ⟨rfl, rfl⟩ := List.cons.inj hself
  obtain ⟨hcurrent, hframes, hleft⟩ :
      ((x.trap frame).dispatch pbkdf2 .sigreturn entry).sys.current = x.sys.current ∧
      ((x.trap frame).dispatch pbkdf2 .sigreturn entry).frames x.sys.current =
        x.saved x.sys.current ∧
      ((x.trap frame).dispatch pbkdf2 .sigreturn entry).interrupted x.sys.current =
        (x.interrupted x.sys.current).tail := dispatch_sigreturn entry hframe
  rw [hinterrupted] at hleft
  refine ⟨?_, hleft, ?_⟩
  · rw [Contexts.frame, hcurrent]
    exact hframes
  · have hnext : (x.next pbkdf2 (.call .sigreturn entry mapped) frame).GoesOn x.sys.current
        (((x.trap frame).dispatch pbkdf2 .sigreturn entry).frames x.sys.current)
        (((x.trap frame).dispatch pbkdf2 .sigreturn entry).interrupted x.sys.current) :=
      goesOn_next_call entry frame mapped x.sys.current
    rw [hleft, hframes] at hnext
    exact hnext

/-- Without a saved frame, a process does not get back from a handler: `sigreturn` answers −22. -/
theorem not_transparent (hrun : x.sys.halted = false) {f : TrapFrame} {outer : List TrapFrame}
    (hinterrupted : x.interrupted x.sys.current = f :: outer)
    (hframe : x.sys.self.signalFrame = false) : ¬ x.Transparent pbkdf2 := by
  intro h
  -- It is called with another instruction pointer.
  let frame := { f with rip := f.rip + 1 }
  have hframes : ((x.trap frame).dispatch pbkdf2 .sigreturn f).frame =
      { frame with rax := BitVec.ofInt 64 (-22) } := by
    have hself : (x.trap frame).sys.self.signalFrame = false := hframe
    have hcurrent : ((x.trap frame).dispatch pbkdf2 .sigreturn f).sys.current = x.sys.current := by
      simp only [dispatch, Exec.dispatch, restoreSignalContext, hself]
      rfl
    rw [Contexts.frame, hcurrent]
    simp only [dispatch, newSlot, Option.elim_none, ownFrame, answerTo, hself, Bool.false_eq_true,
      if_false]
    show Function.update _ x.sys.current _ x.sys.current = _
    rw [update_self]
    simp only [Contexts.frame, trap, update_self]
  have hrip := congrArg TrapFrame.rip
    (hframes.symm.trans (h hrun f outer hinterrupted frame f fun _ => false).1)
  have hne : f.rip + 1 ≠ f.rip := by simp
  exact hne hrip

/-! ### A run -/

/-- Registers of a program. -/
def userFrame : TrapFrame where
  r15 := 15
  r14 := 14
  r13 := 13
  r12 := 12
  r11 := 11
  r10 := 10
  r9 := 9
  r8 := 8
  rbp := 7
  rdi := 6
  rsi := 5
  rdx := 4
  rcx := 3
  rbx := 2
  rax := 1
  rip := 0x400000
  cs := 0x23
  rflags := 0x202
  rsp := 0x700000
  ss := 0x1b

/-- A call with these registers. -/
def calls (c : Call) (x : Contexts) : Contexts :=
  x.next (fun _ _ _ => none) (.call c userFrame fun _ => true) userFrame

/-- A process that `init` has made runs. -/
def childRuns : Contexts :=
  ((boot (fun _ => userFrame) fun _ => userFrame).calls (.fork true)).calls .yield

/-- It has registered a handler for the signal 15, and has sent it to itself. -/
def inHandler : Contexts :=
  (childRuns.calls (.sigaction 15 0x401000 0x402000 true)).calls (.kill 2 15)

/-- It has made a copy of itself within the handler, and the copy runs. -/
def copyRuns : Contexts := (inHandler.calls (.fork true)).calls .yield

theorem reaches_inHandler : Reaches (fun _ _ _ => none) ForksOutside inHandler := by
  have hboot : Reaches (fun _ _ _ => none) ForksOutside
    (boot (fun _ => userFrame) fun _ => userFrame) := .boot _ _
  have hforked := hboot.next (.call (.fork true) userFrame fun _ => true) userFrame rfl
    fun _ _ => rfl
  have hruns := hforked.next (.call .yield userFrame fun _ => true) userFrame
    (by decide +kernel) trivial
  have hregistered := hruns.next (.call (.sigaction 15 0x401000 0x402000 true) userFrame
    fun _ => true) userFrame (by decide +kernel) trivial
  exact hregistered.next (.call (.kill 2 15) userFrame fun _ => true) userFrame
    (by decide +kernel) trivial

/-- The process is within a handler, which interrupted it where `fork` returned. -/
theorem handlers_transparent_sample : inHandler.Transparent (fun _ _ _ => none) ∧
    inHandler.interrupted inHandler.sys.current = [{ userFrame with rax := 0 }] := by
  constructor
  · exact handlers_transparent reaches_inHandler
  · decide +kernel

theorem Reaches.mono {allowed allowed' : Contexts → Trap → Prop} (h : Reaches pbkdf2 allowed x)
    (himp : ∀ x t, allowed x t → allowed' x t) : Reaches pbkdf2 allowed' x := by
  induction h with
  | boot frames saved => exact .boot frames saved
  | next _ t frame hrun ha ih => exact ih.next t frame hrun (himp _ t ha)

/-- **A copy that was made within a handler** does not get back: its `sigreturn` answers −22. -/
theorem forked_handler_is_stuck : Reaches (fun _ _ _ => none) (fun _ _ => True) copyRuns ∧
    (copyRuns.calls .sigreturn).frame = { userFrame with rax := -22 } ∧
    ¬ copyRuns.Transparent fun _ _ _ => none := by
  refine ⟨?_, by decide +kernel, fun h => ?_⟩
  · have hhandler : Reaches (fun _ _ _ => none) (fun _ _ => True) inHandler :=
      reaches_inHandler.mono fun _ _ _ => trivial
    have hforked := hhandler.next (.call (.fork true) userFrame fun _ => true) userFrame
      (by decide +kernel) trivial
    exact hforked.next (.call .yield userFrame fun _ => true) userFrame (by decide +kernel) trivial
  · have hinterrupted : copyRuns.interrupted copyRuns.sys.current =
        [{ userFrame with rax := 0 }] := by decide +kernel
    exact not_transparent (by decide +kernel) hinterrupted (by decide +kernel) h

end Contexts

end ImagineOS.Exec
