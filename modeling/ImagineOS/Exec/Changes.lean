import ImagineOS.Exec.Dispatched

/-!
# Processes: what a step can do

An event does one thing to the table of processes (`Act`): it creates a process, replaces an image,
changes an identity, collects a child or blocks; or it leaves the table alone. After that processes
may end, and others be chosen (`Settles`). Invariants of runs follow from these two.
-/

namespace ImagineOS.Exec

/-! ### Cores -/

/-- A process without what only the scheduler and the signals use. -/
@[ext] structure Core where
  pid : ℕ
  active : Bool
  parent : ℕ
  zombie : Bool
  waitingFor : ℕ
  allowsDiskInstall : Bool
  uid : ℕ
  gid : ℕ
  isAdmin : Bool
  username : List UInt8
  history : History

/-- The core of a process. -/
def Process.core (p : Process) : Core where
  pid := p.pid
  active := p.active
  parent := p.parent
  zombie := p.zombie
  waitingFor := p.waitingFor
  allowsDiskInstall := p.allowsDiskInstall
  uid := p.uid
  gid := p.gid
  isAdmin := p.isAdmin
  username := p.username
  history := p.history

/-- The cores of the slots. -/
def System.cores (s : System) : Fin maxProcesses → Core := fun i => (s.processes i).core

/-- The processes are what they were. -/
structure KeptProcesses (s s' : System) : Prop where
  cores : s'.cores = s.cores
  births : s'.births = s.births
  collected : s'.collected = s.collected

/-- The processes and what they have open are what they were. -/
structure Kept (s s' : System) : Prop extends KeptProcesses s s' where
  tables : s'.tables = s.tables
  pipes : s'.pipes = s.pipes

/-- The process that runs may run. -/
def Runs (s : System) : Prop :=
  s.halted = false → s.self.active = true ∧ s.self.zombie = false ∧ s.self.waitingFor = 0

section Kept

variable {s : System}

theorem Kept.refl (s : System) : Kept s s := ⟨⟨rfl, rfl, rfl⟩, rfl, rfl⟩

theorem core_update (f : Fin maxProcesses → Process) (i : Fin maxProcesses) (p : Process) :
    (fun j => (Function.update f i p j).core) = Function.update (fun j => (f j).core) i p.core := by
  funext j
  by_cases hj : j = i
  · subst hj
    simp
  · simp [hj]

theorem cores_setSelf (s : System) (p : Process) :
    (s.setSelf p).cores = Function.update s.cores s.current p.core := core_update _ _ _

theorem Kept.setSelf {p : Process} (h : p.core = s.self.core) : Kept s (s.setSelf p) where
  cores := by
    rw [cores_setSelf, h]
    exact Function.update_eq_self _ _
  births := rfl
  collected := rfl
  tables := rfl
  pipes := rfl

theorem Runs.setSelf {p : Process} (h : Runs s) (hcore : p.core = s.self.core) :
    Runs (s.setSelf p) := by
  intro hrun
  obtain ⟨h₁, h₂, h₃⟩ := h hrun
  rw [System.self_setSelf]
  exact ⟨(congrArg Core.active hcore).trans h₁, (congrArg Core.zombie hcore).trans h₂,
    (congrArg Core.waitingFor hcore).trans h₃⟩

end Kept

/-! ### Settling -/

/-- Nothing happens to the processes, or the one that runs ends. -/
def Settle (s s' : System) : Prop := Kept s s' ∨ Kept s.finish s'

/-- What happens after the act of an event. -/
def Settles : System → System → Prop := Relation.ReflTransGen Settle

section Settle

variable {s s' s'' : System}

theorem Settles.refl : Settles s s := Relation.ReflTransGen.refl

theorem Settles.kept (h : Kept s s') : Settles s s' := .single (Or.inl h)

theorem Settles.trans (h : Settles s s') (h' : Settles s' s'') : Settles s s'' :=
  Relation.ReflTransGen.trans h h'

theorem cores_finish (s : System) (i : Fin maxProcesses) :
    s.finish.cores i = { s.cores i with
      zombie := decide (i = s.current) || (s.cores i).zombie
      waitingFor := if i = s.current ∨ (s.cores i).waitingFor = s.self.pid then 0
        else (s.cores i).waitingFor } := by
  by_cases hi : i = s.current
  · subst hi
    simp only [System.cores, System.finish, Function.update_self, System.self, Process.core]
    split <;> simp
  · simp only [System.cores, System.finish, Function.update_of_ne hi, System.self, Process.core]
    split <;> simp_all

theorem Settles.induction {I : System → Prop} (h : Settles s s')
    (hstep : ∀ t t', Settle t t' → I t → I t') (hs : I s) : I s' := by
  induction h with
  | refl => exact hs
  | tail _ hlast ih => exact hstep _ _ hlast ih

theorem Settles.core (h : Settles s s') (i : Fin maxProcesses) :
    ∃ z n, s'.cores i = { s.cores i with zombie := z, waitingFor := n } := by
  refine h.induction (I := fun t => ∃ z n, t.cores i = { s.cores i with
    zombie := z, waitingFor := n }) (fun t t' h ht => ?_) ⟨_, _, rfl⟩
  obtain ⟨z, n, ht⟩ := ht
  rcases h with h | h
  · rw [h.cores]
    exact ⟨z, n, ht⟩
  · rw [h.cores, cores_finish, ht]
    exact ⟨_, _, rfl⟩

theorem schedule_spec (exiting : Bool) (s : System) :
    Kept (if exiting then s.finish else s) (schedule exiting s) ∧ Runs (schedule exiting s) := by
  unfold schedule
  dsimp only
  generalize (if exiting then s.finish else s) = s'
  split
  · rename_i next hnext
    refine ⟨⟨⟨rfl, rfl, rfl⟩, rfl, rfl⟩, fun _ => ?_⟩
    have heligible := List.find?_some hnext
    simp only [Process.eligible, Bool.and_eq_true, Bool.not_eq_true', beq_iff_eq] at heligible
    exact ⟨heligible.1.1.1, heligible.1.2, heligible.2⟩
  · exact ⟨⟨⟨rfl, rfl, rfl⟩, rfl, rfl⟩, fun h => absurd h (by simp)⟩

theorem settle_schedule (exiting : Bool) (s : System) : Settle s (schedule exiting s) := by
  have h := (schedule_spec exiting s).1
  cases exiting with
  | false => exact Or.inl h
  | true => exact Or.inr h

/-- The system settles, and a process that may run is chosen again. -/
def SettlesWell (s s' : System) : Prop := Settles s s' ∧ (Runs s → Runs s')

theorem SettlesWell.refl (s : System) : SettlesWell s s := ⟨.refl, id⟩

theorem SettlesWell.trans (h : SettlesWell s s') (h' : SettlesWell s' s'') : SettlesWell s s'' :=
  ⟨h.1.trans h'.1, fun hs => h'.2 (h.2 hs)⟩

theorem settlesWell_setSelf {p : Process} (h : p.core = s.self.core) :
    SettlesWell s (s.setSelf p) :=
  ⟨.kept (.setSelf h), fun hs => hs.setSelf h⟩

theorem settlesWell_schedule (exiting : Bool) (s : System) : SettlesWell s (schedule exiting s) :=
  ⟨.single (settle_schedule exiting s), fun _ => (schedule_spec exiting s).2⟩

theorem settlesWell_schedule_setSelf (exiting : Bool) {p : Process} (h : p.core = s.self.core) :
    SettlesWell s (schedule exiting (s.setSelf p)) :=
  (settlesWell_setSelf h).trans (settlesWell_schedule exiting _)

theorem deliverPendingSignal_spec (writable : Bool) (s : System) :
    SettlesWell s (deliverPendingSignal writable s) := by
  have h : Delivery s (deliverPendingSignal writable s) := delivery writable s
  generalize deliverPendingSignal writable s = s' at h
  induction h with
  | done => exact .refl _
  | @drops s s' signal _ _ _ _ ih =>
    have hcleared : SettlesWell s (s.setSelf (s.self.clear signal)) := settlesWell_setSelf rfl
    exact hcleared.trans ih
  | ends => exact settlesWell_schedule_setSelf true rfl
  | stops => exact settlesWell_schedule_setSelf false rfl
  | enters => exact settlesWell_setSelf rfl

theorem timerTick_spec (user : Bool) (s : System) : SettlesWell s (timerTick user s) := by
  rw [timerTick]
  split
  · exact .refl s
  dsimp only
  split
  · exact settlesWell_setSelf rfl
  · exact settlesWell_schedule_setSelf false rfl

end Settle

/-! ### Acts -/

/-- The core of a new process: the creator hands down its rights. -/
def System.newCore (s : System) (image : String) (allowsDiskInstall : Bool) : Core where
  pid := s.nextPid
  active := true
  parent := s.self.pid
  zombie := false
  waitingFor := 0
  allowsDiskInstall := allowsDiskInstall
  uid := s.self.uid
  gid := s.self.gid
  isAdmin := s.self.isAdmin
  username := s.self.username
  history := ⟨image, s.births, s.self.history.birth⟩

section Act

variable (pbkdf2 : List UInt8 → List UInt8 → ℕ → Option (List UInt8))

/-- What an event does to the table of processes. -/
inductive Act : Event → System → System → Prop
  /-- Nothing. -/
  | kept {e : Event} {s s' : System} (h : Kept s s') (hcurrent : s'.current = s.current) :
      Act e s s'
  /-- Descriptors change. -/
  | opened {c : Call} {w : Bool} {s : System} (hc : c.onDescriptors = true)
      (h : KeptProcesses s (dispatch pbkdf2 c s))
      (hcurrent : (dispatch pbkdf2 c s).current = s.current)
      (htables : ∀ i, i ≠ s.current → (dispatch pbkdf2 c s).tables i = s.tables i) :
      Act (.call c w) s (dispatch pbkdf2 c s)
  /-- A process is created with an image of its own. -/
  | spawned {e : Event} {s : System} {slot : Fin maxProcesses} {path : String} {p : Process}
      {io : SpawnIo} (hslot : s.freeSlot = some slot)
      (hp : p.core = s.newCore path (path == distroInstall)) :
      Act e s (s.create slot p (applySpawnIo .new io (s.tables s.current) s.pipes).1
        (applySpawnIo .new io (s.tables s.current) s.pipes).2)
  /-- A process is created as a copy. -/
  | forked {e : Event} {s : System} {slot : Fin maxProcesses} {p : Process}
      (hslot : s.freeSlot = some slot)
      (hp : p.core = s.newCore s.self.history.image s.self.allowsDiskInstall) :
      Act e s (s.create slot p (s.tables s.current)
        (addAll (s.tables s.current) (List.finRange maxOpenFds) s.pipes))
  /-- The process that runs gets another image. -/
  | replaced {path : String} {w : Bool} {s : System} {p : Process}
      (hp : p.core = { s.self.core with
        active := true
        zombie := false
        waitingFor := 0
        history := { s.self.history with image := path } }) :
      Act (.call (.execve path .loaded) w) s (s.setSelf p)
  /-- The process that runs gets another identity: its own account was verified and it is an
  administrator, or the account of the identity was verified. -/
  | elevated {database : Option (List UInt8)} {username password : List UInt8} {targetUid : ℕ}
      {w : Bool} {s : System} {account : Account} (hname : username = s.self.username)
      (hadmin : s.self.isAdmin = true)
      (haccount : authenticate pbkdf2 database username password = some account) :
      Act (.call (.authenticate database username password targetUid) w) s
        (s.setSelf { s.self with uid := 0, gid := 0, isAdmin := true, username := rootName })
  | identified {database : Option (List UInt8)} {username password : List UInt8} {targetUid : ℕ}
      {w : Bool} {s : System} {account : Account}
      (haccount : authenticate pbkdf2 database username password = some account) :
      Act (.call (.authenticate database username password targetUid) w) s
        (s.setSelf { s.self with
          uid := account.uid
          gid := account.gid
          isAdmin := account.administrator
          username := account.username })
  /-- A child is collected. -/
  | collected {wanted : ℤ} {statusPointer : ℕ} {writable : Bool} {options : ℤ} {w : Bool}
      {s : System} {child slot : Fin maxProcesses}
      (hchild : (s.processes child).answers s.self.pid wanted = true)
      (hzombie : (s.processes child).zombie = true)
      (hslot : (s.processes slot).active = true)
      (hpid : (s.processes slot).pid = (s.processes child).pid) :
      Act (.call (.waitpid wanted statusPointer writable options) w) s (s.collect child slot)
  /-- The process that runs blocks. -/
  | blocked {wanted : ℤ} {statusPointer : ℕ} {writable : Bool} {options : ℤ} {w : Bool}
      {s s' : System} {child : Fin maxProcesses} (hoptions : wnohang options = false)
      (hchild : (s.processes child).answers s.self.pid wanted = true)
      (hnone : (∀ i, (s.processes i).answers s.self.pid wanted = true →
          (s.processes i).zombie = false) ∨ (statusPointer ≠ 0 ∧ writable = false))
      (h : Kept (s.setSelf { s.self with
        waitingFor := if 0 < wanted then wanted.toNat else usizeMax }) s') (hruns : Runs s') :
      Act (.call (.waitpid wanted statusPointer writable options) w) s s'

variable {pbkdf2} {s : System}

/-- A call that does what an act does. -/
def Does (pbkdf2 : List UInt8 → List UInt8 → ℕ → Option (List UInt8)) (e : Event) (s s' : System) :
    Prop :=
  ∃ s₁, Act pbkdf2 e s s₁ ∧ SettlesWell s₁ s'

theorem Does.act {e : Event} {s' : System} (h : Act pbkdf2 e s s') : Does pbkdf2 e s s' :=
  ⟨s', h, .refl s'⟩

theorem Does.settle {e : Event} {s' : System} (h : SettlesWell s s') : Does pbkdf2 e s s' :=
  ⟨s, .kept (.refl s) rfl, h⟩

theorem Does.nothing (e : Event) (s : System) : Does pbkdf2 e s s := .settle (.refl s)

theorem opened_of_only {c : Call} {w : Bool} (hc : c.onDescriptors = true)
    (h : OnlyDescriptors s (dispatch pbkdf2 c s)) :
    Does pbkdf2 (.call c w) s (dispatch pbkdf2 c s) := by
  obtain ⟨t, p, heq⟩ := h
  refine .act (.opened hc ?_ ?_ fun i hi => ?_) <;> rw [heq]
  · exact ⟨rfl, rfl, rfl⟩
  · exact Function.update_of_ne hi _ _

theorem cores_send (s : System) (i : Fin maxProcesses) (x : Fin 32) :
    (s.send i x).cores = s.cores := by
  rw [show (s.send i x).cores = Function.update s.cores i (s.cores i) from core_update _ _ _,
    Function.update_eq_self]

/-- The dispatcher of system calls. -/
theorem dispatch_spec (c : Call) (w : Bool) (s : System) :
    Does pbkdf2 (.call c w) s (dispatch pbkdf2 c s) := by
  have h : Dispatched pbkdf2 s c (dispatch pbkdf2 c s) := dispatched c s
  generalize hs : dispatch pbkdf2 c s = s' at h
  cases h with
  | nothing => exact .nothing _ s
  | descriptors hc h =>
    rw [← hs] at h ⊢
    exact opened_of_only hc h
  | yields => exact .settle (settlesWell_schedule false s)
  | exits status => exact .settle (settlesWell_schedule_setSelf true rfl)
  | elevated hname hadmin haccount => exact .act (.elevated hname hadmin haccount)
  | identified haccount => exact .act (.identified haccount)
  | @sent _ _ x i => exact .act (.kept ⟨⟨cores_send s i x, rfl, rfl⟩, rfl, rfl⟩ rfl)
  | handles => exact .act (.kept (.setSelf rfl) rfl)
  | returns => exact .act (.kept (.setSelf rfl) rfl)
  | replaced path => exact .act (.replaced rfl)
  | spawned _ hslot => exact ⟨_, .spawned hslot rfl, settlesWell_schedule false _⟩
  | forked hslot => exact .act (.forked hslot rfl)
  | blocked hoptions hchild hnone =>
    exact .act (.blocked hoptions hchild hnone (schedule_spec false _).1 (schedule_spec false _).2)
  | collected hchild hzombie hslot hpid => exact .act (.collected hchild hzombie hslot hpid)

theorem settlesWell_call (c : Call) (w : Bool) (s : System) :
    SettlesWell (dispatch pbkdf2 c s) (step pbkdf2 (.call c w) s) := by
  rw [step]
  split
  · exact .refl _
  · exact deliverPendingSignal_spec w _

/-- **What an event does**: one act, and then the system settles. -/
theorem step_spec (e : Event) (s : System) : Does pbkdf2 e s (step pbkdf2 e s) := by
  cases e with
  | call c w =>
    obtain ⟨s₁, hact, hsettles⟩ := dispatch_spec c w s
    exact ⟨s₁, hact, hsettles.trans (settlesWell_call c w s)⟩
  | tick user => exact .settle (timerTick_spec user s)
  | fault => exact .settle (settlesWell_schedule true s)

end Act

end ImagineOS.Exec
