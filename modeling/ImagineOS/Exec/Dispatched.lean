import ImagineOS.Exec.Calls

/-!
# Processes: what a call does

The functions of the system calls have many branches, most of which fail. What they do to the tables
is said once, for the call itself (`Dispatched`) and for the way out of it (`Delivery`), and what
runs preserve is derived from that.
-/

namespace ImagineOS.Exec

/-! ### Processes that calls make -/

/-- The process that `fork` makes. -/
def System.copied (s : System) : Process :=
  { Process.empty with
    pid := s.nextPid
    active := true
    parent := s.self.pid
    allowsDiskInstall := s.self.allowsDiskInstall
    uid := s.self.uid
    gid := s.self.gid
    isAdmin := s.self.isAdmin
    username := s.self.username
    signalActions := s.self.signalActions
    signalRestorer := s.self.signalRestorer
    history := ⟨s.self.history.image, s.births, s.self.history.birth⟩ }

/-- The process that `spawn` makes. -/
def System.spawned (s : System) (path : String) : Process :=
  { loadElf s.nextPid (path == distroInstall) ⟨path, s.births, s.self.history.birth⟩ with
    uid := s.self.uid
    gid := s.self.gid
    isAdmin := s.self.isAdmin
    username := s.self.username
    parent := s.self.pid }

/-- The process that `execve` makes of the one that runs. -/
def System.replaced (s : System) (path : String) : Process :=
  { loadElf s.self.pid (path == distroInstall) { s.self.history with image := path } with
    parent := s.self.parent
    uid := s.self.uid
    gid := s.self.gid
    isAdmin := s.self.isAdmin
    username := s.self.username
    allowsDiskInstall := s.self.allowsDiskInstall
    signalActions := s.self.signalActions
    signalRestorer := s.self.signalRestorer }

/-- The process that `send_signal` finds. -/
def System.target (s : System) (pid : ℕ) : Option (Fin maxProcesses) :=
  (List.finRange maxProcesses).find? fun i =>
    (s.processes i).active && (s.processes i).pid == pid

/-- The state after the process in a slot was collected for a child. -/
def System.collect (s : System) (child slot : Fin maxProcesses) : System :=
  { s with
    processes := Function.update s.processes slot .empty
    collected := s.collected ++ [((s.processes slot).history.birth, s.self.history.birth,
      statusValue (s.processes child).exitStatus)] }

/-- Calls that change what is open, and no process. -/
def Call.onDescriptors : Call → Bool
  | .open | .close _ | .dup _ | .dup2 _ _ | .pipe _ => true
  | _ => false

/-! ### One function -/

section Functions

variable {pbkdf2 : List UInt8 → List UInt8 → ℕ → Option (List UInt8)} {s s' : System}

/-- Only what the process that runs has open differs, and pipes do. -/
def OnlyDescriptors (s s' : System) : Prop :=
  ∃ t p, s' = { s with tables := Function.update s.tables s.current t, pipes := p }

theorem OnlyDescriptors.pipes (s : System) (p : Pipes) : OnlyDescriptors s { s with pipes := p } :=
  ⟨s.tables s.current, p, by rw [Function.update_eq_self]⟩

theorem OnlyDescriptors.refl (s : System) : OnlyDescriptors s s := .pipes s s.pipes

theorem OnlyDescriptors.trans {s' s'' : System} (h : OnlyDescriptors s s')
    (h' : OnlyDescriptors s' s'') : OnlyDescriptors s s'' := by
  obtain ⟨t, p, rfl⟩ := h
  obtain ⟨t', p', rfl⟩ := h'
  exact ⟨t', p', by simp⟩

theorem allocateDescriptor_only (d : Descriptor) (s : System) :
    OnlyDescriptors s (allocateDescriptor d s).2 := by
  rw [allocateDescriptor]
  split
  · exact .refl s
  · exact ⟨_, _, rfl⟩

theorem closeDescriptor_only (fd : ℕ) (s : System) :
    OnlyDescriptors s (closeDescriptor fd s).2 := by
  rw [closeDescriptor]
  split
  · exact .refl s
  dsimp only
  split
  · exact .refl s
  · exact ⟨_, _, rfl⟩

theorem duplicateDescriptor_only (fd : ℕ) (s : System) :
    OnlyDescriptors s (duplicateDescriptor fd s).2 := by
  rw [duplicateDescriptor]
  split
  · exact .refl s
  rename_i fd _
  dsimp only
  split
  · exact .refl s
  split
  · exact .refl s
  rename_i pipes _
  have h := (OnlyDescriptors.pipes s pipes).trans
    (allocateDescriptor_only (s.tables s.current fd) { s with pipes := pipes })
  split
  · rename_i heq
    rw [heq] at h
    exact h
  · rename_i heq
    rw [heq] at h
    exact h.trans (.pipes _ _)

theorem duplicateDescriptorTo_only (source target : ℕ) (s : System) :
    OnlyDescriptors s (duplicateDescriptorTo source target s).2 := by
  rw [duplicateDescriptorTo]
  split
  · exact .refl s
  split
  · exact .refl s
  dsimp only
  split
  · exact .refl s
  split
  · exact .refl s
  split
  · exact .refl s
  · exact ⟨_, _, rfl⟩

theorem createPipe_only (copied : Bool) (s : System) :
    OnlyDescriptors s (createPipe copied s).2 := by
  rw [createPipe]
  split
  · exact .refl s
  rename_i id pipes _
  dsimp only
  have h := ((OnlyDescriptors.pipes s pipes).trans
    (allocateDescriptor_only ⟨.pipeRead, id⟩ _)).trans
    (allocateDescriptor_only ⟨.pipeWrite, id⟩ _)
  generalize (allocateDescriptor ⟨.pipeWrite, id⟩
    (allocateDescriptor ⟨.pipeRead, id⟩ { s with pipes := pipes }).2) = writeEnd at h ⊢
  generalize (allocateDescriptor ⟨.pipeRead, id⟩ { s with pipes := pipes }).1 = readEnd
  split
  · split
    · exact h
    · exact (h.trans (closeDescriptor_only _ _)).trans (closeDescriptor_only _ _)
  · have hclose : ∀ (fd : Option (Fin maxOpenFds)) (t : System),
        OnlyDescriptors t ((fd.map fun fd => (closeDescriptor fd t).2).getD t) := fun fd t => by
      cases fd with
      | none => exact .refl t
      | some fd => exact closeDescriptor_only _ _
    exact ((h.trans (hclose _ _)).trans (hclose _ _)).trans (.pipes _ _)

theorem dispatch_only (hc : c.onDescriptors = true) : OnlyDescriptors s (dispatch pbkdf2 c s) := by
  cases c with
  | «open» => exact allocateDescriptor_only _ _
  | close fd => exact closeDescriptor_only _ _
  | dup fd => exact duplicateDescriptor_only _ _
  | dup2 source target => exact duplicateDescriptorTo_only _ _ _
  | pipe copied => exact createPipe_only _ _
  | yield | exit | authenticate | kill | sigaction | sigreturn | exec | execve | spawn | fork
  | waitpid => exact absurd hc (by simp [Call.onDescriptors])

/-- `spawn` fails, or the first free slot gets a process. -/
theorem spawnCurrentWithIo_created (path : String) (loading : Loading) (io : SpawnIo) (s : System) :
    ((spawnCurrentWithIo path loading io s).1 ≤ 0 ∧ (spawnCurrentWithIo path loading io s).2 = s) ∨
    ∃ slot, s.freeSlot = some slot ∧ loading = .loaded ∧
      spawnCurrentWithIo path loading io s = ((s.nextPid : ℤ), schedule false
        (s.create slot (s.spawned path) (applySpawnIo .new io (s.tables s.current) s.pipes).1
          (applySpawnIo .new io (s.tables s.current) s.pipes).2)) := by
  rw [spawnCurrentWithIo]
  split
  · exact Or.inl ⟨by simp, rfl⟩
  rename_i hdenied
  split
  · exact Or.inl ⟨by simp, rfl⟩
  rename_i hmissing
  split
  · exact Or.inl ⟨by simp, rfl⟩
  rename_i slot hslot
  split
  · exact Or.inl ⟨by simp, rfl⟩
  rename_i hrefused
  exact Or.inr ⟨slot, hslot, by cases loading <;> simp_all, rfl⟩

/-- `fork` fails, or the first free slot gets a copy. -/
theorem forkCurrent_created (cloned : Bool) (s : System) :
    ((forkCurrent cloned s).1 ≤ 0 ∧ (forkCurrent cloned s).2 = s) ∨
    ∃ slot, s.freeSlot = some slot ∧ cloned = true ∧
      forkCurrent cloned s = ((s.nextPid : ℤ), s.create slot s.copied (s.tables s.current)
        (addAll (s.tables s.current) (List.finRange maxOpenFds) s.pipes)) := by
  rw [forkCurrent]
  split
  · exact Or.inl ⟨by simp, rfl⟩
  rename_i slot hslot
  split
  · exact Or.inl ⟨by simp, rfl⟩
  rename_i hcloned
  exact Or.inr ⟨slot, hslot, by simpa using hcloned, rfl⟩

/-- `sigaction` fails, or the handler was checked, and is registered. -/
theorem setSignalAction_registers (signal handler restorer : ℕ) (mapped : Bool) (s : System) :
    ((setSignalAction signal handler restorer mapped s).1 ≠ 0 ∧
      (setSignalAction signal handler restorer mapped s).2 = s) ∨
    ∃ y, validSignal signal = some y ∧ (setSignalAction signal handler restorer mapped s).1 = 0 ∧
      (handler ≤ signalIgnore ∨ restorer ≠ 0 ∧ mapped = true) ∧
      (setSignalAction signal handler restorer mapped s).2 = s.setSelf { s.self with
        signalActions := Function.update s.self.signalActions y handler
        signalRestorer := if signalIgnore < handler then restorer else s.self.signalRestorer } := by
  rw [setSignalAction]
  split
  · exact Or.inl ⟨by simp, rfl⟩
  rename_i y hy
  split
  · exact Or.inl ⟨by simp, rfl⟩
  rename_i hvalid
  refine Or.inr ⟨y, hy, rfl, ?_, rfl⟩
  simp only [not_or, not_and, Bool.not_eq_true', Bool.not_eq_false] at hvalid
  by_cases hle : handler ≤ signalIgnore
  · exact Or.inl hle
  · refine Or.inr (hvalid.2.2 (fun h => hle ?_) fun h => hle h.le)
    rw [h]
    exact Nat.zero_le _

/-- A signal is sent to a process. -/
def System.send (s : System) (i : Fin maxProcesses) (x : Fin 32) : System :=
  { s with processes := Function.update s.processes i { s.processes i with
    pendingSignals := (s.processes i).pendingSignals ||| signalBit x
    stopped := (s.processes i).stopped && !(x == signalCont || x == signalKill) } }

theorem sendSignal_sent (pid signal : ℕ) (s : System) :
    ((sendSignal pid signal s).1 ≠ 0 ∧ (sendSignal pid signal s).2 = s) ∨
    ∃ x i, validSignal signal = some x ∧ s.target pid = some i ∧
      sendSignal pid signal s = (0, s.send i x) := by
  rw [sendSignal]
  split
  · exact Or.inl ⟨by simp, rfl⟩
  rename_i x hx
  split
  · exact Or.inl ⟨by simp, rfl⟩
  rename_i i hi
  dsimp only
  split
  · exact Or.inl ⟨by simp, rfl⟩
  split
  · exact Or.inl ⟨by simp, rfl⟩
  · exact Or.inr ⟨x, i, hx, hi, rfl⟩

/-- No child is collected, or a zombie is. -/
theorem reapChild_spec (parentPid : ℕ) (wanted : ℤ) (statusPointer : ℕ) (writable : Bool)
    (s : System) :
    (reapChild parentPid wanted statusPointer writable s =
        ((none, (List.finRange maxProcesses).any fun i =>
          (s.processes i).answers parentPid wanted), s) ∧
      ((∀ i, (s.processes i).answers parentPid wanted = true → (s.processes i).zombie = false) ∨
        (statusPointer ≠ 0 ∧ writable = false))) ∨
    ∃ child slot foundAny,
      reapChild parentPid wanted statusPointer writable s =
        ((some (s.processes child).pid, foundAny), s.collect child slot) ∧
      (s.processes child).answers parentPid wanted = true ∧ (s.processes child).zombie = true ∧
      (s.processes slot).active = true ∧ (s.processes slot).pid = (s.processes child).pid := by
  rw [reapChild]
  dsimp only
  split
  · rename_i hnone
    refine Or.inl ⟨rfl, Or.inl fun i hi => ?_⟩
    have hi' := List.find?_eq_none.mp hnone i (List.mem_finRange i)
    simpa [hi] using hi'
  · rename_i child hchild
    have hzombie := List.find?_some hchild
    rw [Bool.and_eq_true] at hzombie
    split
    · rename_i hpointer
      exact Or.inl ⟨rfl, Or.inr (by simpa using hpointer)⟩
    split
    · rename_i hnone
      -- The child itself is in a slot.
      have hactive : (s.processes child).active = true := by
        have hanswers := hzombie.1
        simp only [Process.answers, Bool.and_eq_true] at hanswers
        exact hanswers.1.1
      have hself := List.find?_eq_none.mp hnone child (List.mem_finRange child)
      simp [hactive] at hself
    · rename_i slot hslot
      have hpid := List.find?_some hslot
      rw [Bool.and_eq_true, beq_iff_eq] at hpid
      exact Or.inr ⟨child, slot, _, rfl, hzombie.1, hzombie.2, hpid.1, hpid.2⟩

end Functions

/-! ### Any call -/

section Dispatch

variable (pbkdf2 : List UInt8 → List UInt8 → ℕ → Option (List UInt8))

/-- What a call does. -/
inductive Dispatched (s : System) : Call → System → Prop
  /-- It fails, or does nothing else to the tables. -/
  | nothing {c : Call} (h : ∀ pid signal, c = .kill pid signal → (sendSignal pid signal s).1 ≠ 0) :
      Dispatched s c s
  /-- Descriptors change. -/
  | descriptors {c : Call} {s' : System} (hc : c.onDescriptors = true) (h : OnlyDescriptors s s') :
      Dispatched s c s'
  | yields : Dispatched s .yield (schedule false s)
  | exits (status : ℤ) :
      Dispatched s (.exit status) (schedule true (s.setSelf { s.self with exitStatus := status }))
  /-- The process that runs gets another identity: its own account was verified and it is an
  administrator, or the account of the identity was verified. -/
  | elevated {database : Option (List UInt8)} {username password : List UInt8} {targetUid : ℕ}
      {account : Account} (hname : username = s.self.username) (hadmin : s.self.isAdmin = true)
      (haccount : authenticate pbkdf2 database username password = some account) :
      Dispatched s (.authenticate database username password targetUid)
        (s.setSelf { s.self with uid := 0, gid := 0, isAdmin := true, username := rootName })
  | identified {database : Option (List UInt8)} {username password : List UInt8} {targetUid : ℕ}
      {account : Account}
      (haccount : authenticate pbkdf2 database username password = some account) :
      Dispatched s (.authenticate database username password targetUid)
        (s.setSelf { s.self with
          uid := account.uid
          gid := account.gid
          isAdmin := account.administrator
          username := account.username })
  /-- A signal is sent. -/
  | sent {pid signal : ℕ} {x : Fin 32} {i : Fin maxProcesses} (hx : validSignal signal = some x)
      (hi : s.target pid = some i) (hresult : (sendSignal pid signal s).1 = 0) :
      Dispatched s (.kill pid signal) (s.send i x)
  /-- The process that runs handles a signal in another way. -/
  | handles {signal handler restorer : ℕ} {mapped : Bool} {x : Fin 32}
      (hvalid : handler ≤ signalIgnore ∨ restorer ≠ 0 ∧ mapped = true) :
      Dispatched s (.sigaction signal handler restorer mapped) (s.setSelf { s.self with
        signalActions := Function.update s.self.signalActions x handler
        signalRestorer := if signalIgnore < handler then restorer else s.self.signalRestorer })
  /-- It leaves a handler. -/
  | returns : Dispatched s .sigreturn (s.setSelf { s.self with signalFrame := false })
  /-- It gets another image. -/
  | replaced (path : String) : Dispatched s (.execve path .loaded) (s.setSelf (s.replaced path))
  /-- A process is created with an image of its own. -/
  | spawned {c : Call} {path : String} {io : SpawnIo} {slot : Fin maxProcesses}
      (hc : c = .exec path .loaded ∨ c = .spawn path .loaded io) (hslot : s.freeSlot = some slot) :
      Dispatched s c (schedule false
        (s.create slot (s.spawned path) (applySpawnIo .new io (s.tables s.current) s.pipes).1
          (applySpawnIo .new io (s.tables s.current) s.pipes).2))
  /-- A process is created as a copy. -/
  | forked {slot : Fin maxProcesses} (hslot : s.freeSlot = some slot) :
      Dispatched s (.fork true) (s.create slot s.copied (s.tables s.current)
        (addAll (s.tables s.current) (List.finRange maxOpenFds) s.pipes))
  /-- The process that runs blocks. -/
  | blocked {wanted : ℤ} {statusPointer : ℕ} {writable : Bool} {options : ℤ}
      {child : Fin maxProcesses} (hoptions : wnohang options = false)
      (hchild : (s.processes child).answers s.self.pid wanted = true)
      (hnone : (∀ i, (s.processes i).answers s.self.pid wanted = true →
          (s.processes i).zombie = false) ∨ (statusPointer ≠ 0 ∧ writable = false)) :
      Dispatched s (.waitpid wanted statusPointer writable options)
        (schedule false (s.setSelf { s.self with
          waitingFor := if 0 < wanted then wanted.toNat else usizeMax }))
  /-- A child is collected. -/
  | collected {wanted : ℤ} {statusPointer : ℕ} {writable : Bool} {options : ℤ}
      {child slot : Fin maxProcesses}
      (hchild : (s.processes child).answers s.self.pid wanted = true)
      (hzombie : (s.processes child).zombie = true)
      (hslot : (s.processes slot).active = true)
      (hpid : (s.processes slot).pid = (s.processes child).pid) :
      Dispatched s (.waitpid wanted statusPointer writable options) (s.collect child slot)

variable {pbkdf2} {s : System}

theorem Dispatched.spawn {c : Call} {path : String} {loading : Loading} {io : SpawnIo}
    (hc : c = .exec path loading ∨ c = .spawn path loading io) :
    Dispatched pbkdf2 s c (spawnCurrentWithIo path loading io s).2 := by
  rcases spawnCurrentWithIo_created path loading io s with ⟨-, heq⟩ | ⟨slot, hslot, rfl, heq⟩ <;>
    rw [heq]
  · exact .nothing fun pid signal h => by rcases hc with rfl | rfl <;> cases h
  · exact .spawned hc hslot

theorem Dispatched.authenticate (database : Option (List UInt8)) (username password : List UInt8)
    (targetUid : ℕ) :
    Dispatched pbkdf2 s (.authenticate database username password targetUid)
      (authenticateCurrent pbkdf2 database username password targetUid s).2 := by
  rw [authenticateCurrent]
  split
  · rename_i hself
    split
    · exact .nothing nofun
    · rename_i hverified
      obtain ⟨hadmin, haccount⟩ := not_or.mp hverified
      obtain ⟨account, haccount⟩ := Option.ne_none_iff_exists'.mp fun hnone =>
        haccount (Option.isNone_iff_eq_none.mpr hnone)
      exact .elevated hself.2.1 (by simpa using hadmin) haccount
  · split
    · exact .nothing nofun
    · rename_i account haccount
      split
      · exact .nothing nofun
      · exact .identified haccount

theorem Dispatched.waitpid (wanted : ℤ) (statusPointer : ℕ) (writable : Bool) (options : ℤ) :
    Dispatched pbkdf2 s (.waitpid wanted statusPointer writable options)
      (waitpidCurrent wanted statusPointer writable options s).2 := by
  rw [waitpidCurrent]
  rcases reapChild_spec s.self.pid wanted statusPointer writable s with
    ⟨heq, hnone⟩ | ⟨child, slot, foundAny, heq, hchild, hzombie, hslot, hpid⟩ <;> rw [heq]
  · dsimp only
    split
    · exact .nothing nofun
    rename_i hany
    split
    · exact .nothing nofun
    rename_i hoptions
    obtain ⟨child, hchild⟩ : ∃ i, (s.processes i).answers s.self.pid wanted = true := by
      simpa using hany
    exact .blocked (by simpa using hoptions) hchild hnone
  · exact .collected hchild hzombie hslot hpid

/-- **What a call does.** -/
theorem dispatched (c : Call) (s : System) : Dispatched pbkdf2 s c (dispatch pbkdf2 c s) := by
  cases c with
  | yield => exact .yields
  | exit status => exact .exits status
  | authenticate database username password targetUid =>
    exact .authenticate database username password targetUid
  | kill pid signal =>
    rw [dispatch]
    rcases sendSignal_sent pid signal s with ⟨hresult, heq⟩ | ⟨x, i, hx, hi, heq⟩
    · rw [heq]
      refine .nothing fun pid' signal' h => ?_
      obtain ⟨rfl, rfl⟩ := Call.kill.inj h
      exact hresult
    · have hresult : (sendSignal pid signal s).1 = 0 := by rw [heq]
      rw [heq]
      exact .sent hx hi hresult
  | sigaction signal handler restorer mapped =>
    rw [dispatch]
    rcases setSignalAction_registers signal handler restorer mapped s with
      ⟨-, heq⟩ | ⟨y, -, -, hvalid, heq⟩ <;> rw [heq]
    · exact .nothing nofun
    · exact .handles hvalid
  | sigreturn =>
    rw [dispatch, restoreSignalContext]
    split
    · exact .returns
    · exact .nothing nofun
  | exec path loading => exact .spawn (Or.inl rfl)
  | execve path loading =>
    cases loading with
    | denied | missing | refused => exact .nothing nofun
    | loaded => exact .replaced path
  | spawn path loading io => exact .spawn (Or.inr rfl)
  | fork cloned =>
    rw [dispatch]
    rcases forkCurrent_created cloned s with ⟨-, heq⟩ | ⟨slot, hslot, rfl, heq⟩ <;> rw [heq]
    · exact .nothing nofun
    · exact .forked hslot
  | waitpid wanted statusPointer writable options =>
    exact .waitpid wanted statusPointer writable options
  | «open» | close | dup | dup2 | pipe => exact .descriptors rfl (dispatch_only rfl)

end Dispatch

/-! ### The way out -/

/-- What the delivery of signals does. -/
inductive Delivery : System → System → Prop
  /-- Nothing is delivered: `SIGKILL` and `SIGSTOP` are not pending. -/
  | done {s : System} (h : s.self.active = true → ∀ signal,
      nextPendingSignal s.self.pendingSignals = some signal →
        signal ≠ signalKill ∧ signal ≠ signalStop) : Delivery s s
  /-- A signal is dropped, and the next one is looked at. -/
  | drops {s s' : System} {signal : Fin 32}
      (hsignal : nextPendingSignal s.self.pendingSignals = some signal)
      (hkill : signal ≠ signalKill) (hstop : signal ≠ signalStop)
      (h : Delivery (s.setSelf (s.self.clear signal)) s') : Delivery s s'
  /-- The process ends. -/
  | ends {s : System} {signal : Fin 32}
      (hsignal : nextPendingSignal s.self.pendingSignals = some signal)
      (hstop : signal ≠ signalStop) :
      Delivery s (schedule true (s.setSelf (s.self.clear signal)))
  /-- It is stopped. -/
  | stops {s : System} (hsignal : nextPendingSignal s.self.pendingSignals = some signalStop) :
      Delivery s (schedule false (s.setSelf { s.self.clear signalStop with stopped := true }))
  /-- A handler is entered. -/
  | enters {s : System} {signal : Fin 32}
      (hsignal : nextPendingSignal s.self.pendingSignals = some signal)
      (hkill : signal ≠ signalKill) (hstop : signal ≠ signalStop)
      (hframe : s.self.signalFrame = false) :
      Delivery s (s.setSelf { s.self.clear signal with signalFrame := true })

/-- **What the way out does.** -/
theorem delivery (writable : Bool) (s : System) : Delivery s (deliverPendingSignal writable s) := by
  induction hn : (pendingList s.self.pendingSignals).length using Nat.strong_induction_on
    generalizing s with
  | _ n ih =>
    subst hn
    rw [deliverPendingSignal]
    split
    · rename_i hactive
      exact .done fun h => absurd h (by simpa using hactive)
    split
    · rename_i hnone
      exact .done fun _ signal hsignal => absurd (hnone.symm.trans hsignal) (by simp)
    rename_i signal hsignal
    split
    · rename_i hframe
      refine .done fun _ signal' hsignal' => ?_
      obtain rfl := Option.some.inj (hsignal.symm.trans hsignal')
      exact hframe.2
    rename_i hframe
    dsimp only
    -- The signal is not pending any more, and the loop goes on.
    have hloop := ih _ (by
      rw [System.self_setSelf]
      exact pendingList_clear hsignal) (s.setSelf (s.self.clear signal)) rfl
    split
    · rename_i hignore
      exact .drops hsignal hignore.2.1 hignore.2.2 hloop
    split
    · rename_i hend
      refine .ends hsignal ?_
      rintro rfl
      rcases hend with h | ⟨-, h⟩ <;> exact absurd h (by decide)
    rename_i hend
    have hkill : signal ≠ signalKill := fun h => hend (Or.inl h)
    split
    · rename_i hstop
      subst hstop
      exact .stops hsignal
    rename_i hstop
    split
    · exact .drops hsignal hkill hstop hloop
    split
    · split
      · exact .enters hsignal hkill hstop (Bool.eq_false_iff.mpr fun h => hframe ⟨h, hkill, hstop⟩)
      · exact .ends hsignal hstop
    · exact .drops hsignal hkill hstop hloop

end ImagineOS.Exec
