import ImagineOS.Exec.Status
import ImagineOS.Exec.SignalRuns

/-!
# Init: supervision

`init` starts a getty and `getty` starts a shell, and both look into the list of processes to see
whether it is still there. The list has everybody that has a slot; a process that has ended keeps
its slot until its parent waits for it, and neither of the two ever does. So the check says what it
should exactly as long as the child has not ended (`sees_iff`): the end of the child is never seen.
-/

namespace ImagineOS.Init

open Exec

/-! ### The list of processes -/

/-- `ProcessInfo`, without the name. -/
structure ProcessInfo where
  pid : ℕ
  stopped : Bool
  pendingSignals : BitVec 32
  deriving DecidableEq

def snapshot (s : System) : List ProcessInfo :=
  ((List.finRange maxProcesses).filter fun i => (s.processes i).active).map fun i =>
    ⟨(s.processes i).pid, (s.processes i).stopped, (s.processes i).pendingSignals.setWidth 32⟩

def processIsActive (pid : ℕ) (s : System) : Bool := (snapshot s).any (·.pid == pid)

theorem processIsActive_iff {pid : ℕ} {s : System} :
    processIsActive pid s = true ↔ ∃ i, (s.processes i).active = true ∧
      (s.processes i).pid = pid := by
  simp [processIsActive, snapshot]

/-! ### Supervisors -/

/-- A supervisor among all other processes. -/
structure Watch where
  sys : System
  /-- The program that it starts: `"/sbin/getty"` for `init`, and `"/bin/shell"` for `getty`. -/
  program : String
  /-- The number of its creation. -/
  supervisor : ℕ
  /-- The child that it has started last: the pid, and the number of its creation. -/
  child : Option (ℕ × ℕ)
  /-- There is no child, or the last check said that it is gone. -/
  gone : Bool

/-- What happens. -/
inductive Happening
  | event (e : Event)
  /-- The supervisor makes its check, after which its signals are delivered. -/
  | check (writable : Bool)

namespace Watch

/-- The supervisor runs. -/
def Running (x : Watch) : Prop := x.sys.halted = false ∧ x.sys.self.history.birth = x.supervisor

instance (x : Watch) : Decidable x.Running := inferInstanceAs (Decidable (_ ∧ _))

/-- What the supervisor does in its loop: it starts its program if there is no child, and yields.
`getty` asks for a password before, and both exit when the console fails. -/
def calls (x : Watch) : Call → Bool
  | .exec path _ => path == x.program && x.gone
  | .yield | .exit _ | .authenticate .. => true
  | _ => false

/-- What may happen: the others do what they like. -/
def allows (x : Watch) : Happening → Bool
  | .check _ => x.Running
  | .event (.call c _) => !decide x.Running || x.calls c
  | .event _ => true

/-- The supervisor has started its program. -/
def starts (x : Watch) : Happening → Option (ℕ × ℕ)
  | .event (.call (.exec path loading) _) =>
    let pid := (spawnCurrent path loading x.sys).1
    if x.Running ∧ 0 < pid then some (pid.toNat, x.sys.births) else none
  | _ => none

/-- What the check says. -/
def looks (x : Watch) : Bool :=
  match x.child with
  | none => true
  | some (pid, _) => !processIsActive pid x.sys

variable (pbkdf2 : List UInt8 → List UInt8 → ℕ → Option (List UInt8))

def next (h : Happening) (x : Watch) : Watch :=
  match h with
  | .check writable =>
    { x with sys := deliverPendingSignal writable x.sys, gone := x.looks }
  | .event e =>
    let started := x.starts h
    { x with
      sys := step pbkdf2 e x.sys
      child := started <|> x.child
      gone := x.gone && started.isNone }

/-- What follows when the process with a number of creation begins to supervise. -/
inductive Reaches (allowed : Event → System → Prop) : Watch → Prop
  | begin {s : System} (hs : Run pbkdf2 allowed s) (program : String) (i : Fin maxProcesses)
      (hi : s.Live i) : Reaches allowed ⟨s, program, (s.processes i).history.birth, none, true⟩
  | next {x : Watch} (hx : Reaches allowed x) (h : Happening) (hrun : x.sys.halted = false)
      (hallowed : x.allows h = true) : Reaches allowed (x.next pbkdf2 h)

/-- The child has not ended. -/
def Alive (s : System) (birth : ℕ) : Prop :=
  ∃ i, s.Live i ∧ (s.processes i).history.birth = birth

/-- **What the check should say**: that the child is gone, exactly if it has ended. -/
def Sees (x : Watch) : Prop :=
  ∀ pid birth, x.child = some (pid, birth) →
    (processIsActive pid x.sys = false ↔ ¬ Alive x.sys birth)

end Watch

/-! ### The child keeps its slot -/

/-- As long as the supervisor is there, so is its child. -/
structure Watching (x : Watch) : Prop where
  sound : Sound x.sys
  born : x.supervisor < x.sys.births
  child : ∀ pid birth, x.child = some (pid, birth) → birth < x.sys.births ∧
    ∀ i, (x.sys.processes i).active = true → (x.sys.processes i).history.birth = x.supervisor →
      ∃ j, (x.sys.processes j).active = true ∧ (x.sys.processes j).history.birth = birth ∧
        (x.sys.processes j).pid = pid ∧ (x.sys.processes j).parent = (x.sys.processes i).pid

section Watching

variable {pbkdf2 : List UInt8 → List UInt8 → ℕ → Option (List UInt8)}
  {allowed : Event → System → Prop} {x : Watch} {e : Event} {s : System} {i : Fin maxProcesses}
  {b pid : ℕ}

theorem origin_of_birth_lt (hs : Sound s) (hrun : s.halted = false)
    (hi : ((step pbkdf2 e s).processes i).active = true)
    (hb : ((step pbkdf2 e s).processes i).history.birth < s.births) :
    (s.processes i).active = true ∧ SameIdentity (s.cores i) ((step pbkdf2 e s).cores i) :=
  (step_origin hs hrun hi).resolve_right fun h => absurd h.2.1 hb.ne

/-- A child keeps its slot as long as its parent does not wait. -/
theorem child_stays (hs : Sound s) (hrun : s.halted = false)
    (hwait : s.self.history.birth = b → ∀ wanted statusPointer writable options w,
      e ≠ .call (.waitpid wanted statusPointer writable options) w)
    (hb : b < s.births) {birth : ℕ}
    (hchild : ∀ i, (s.processes i).active = true → (s.processes i).history.birth = b →
      ∃ j, (s.processes j).active = true ∧ (s.processes j).history.birth = birth ∧
        (s.processes j).pid = pid ∧ (s.processes j).parent = (s.processes i).pid)
    (hi : ((step pbkdf2 e s).processes i).active = true)
    (hbi : ((step pbkdf2 e s).processes i).history.birth = b) :
    ∃ j, ((step pbkdf2 e s).processes j).active = true ∧
      ((step pbkdf2 e s).processes j).history.birth = birth ∧
      ((step pbkdf2 e s).processes j).pid = pid ∧
      ((step pbkdf2 e s).processes j).parent = ((step pbkdf2 e s).processes i).pid := by
  obtain ⟨hiold, hisame⟩ := origin_of_birth_lt hs hrun hi (hbi ▸ hb)
  have hibirth : (s.processes i).history.birth = b := hisame.birth.symm.trans hbi
  obtain ⟨j, hj, hjbirth, hjpid, hjparent⟩ := hchild i hiold hibirth
  have hjnew : ((step pbkdf2 e s).processes j).active = true := by
    rcases step_stays hs hrun hj with h |
      ⟨-, hparent, wanted, statusPointer, writable, options, w, he⟩
    · exact h
    · -- Who waits for the child has the pid of the supervisor, and is the supervisor.
      have hself : i = s.current :=
        hs.identity.pid i s.current hiold (hs.runs hrun).1 (hjparent.symm.trans hparent)
      subst hself
      exact absurd he (hwait hibirth _ _ _ _ _)
  have hjsame : SameIdentity (s.cores j) ((step pbkdf2 e s).cores j) := by
    refine ((step_origin hs hrun hjnew).resolve_right fun h => ?_).2
    exact absurd (hj.symm.trans (freeSlot_inactive h.1)) (by simp)
  exact ⟨j, hjnew, hjsame.birth.trans hjbirth, hjsame.pid.trans hjpid,
    (hjsame.parent.trans hjparent).trans hisame.pid.symm⟩

theorem not_waitpid (hallowed : x.allows (.event e) = true) (hrunning : x.Running)
    (wanted : ℤ) (statusPointer : ℕ) (writable : Bool) (options : ℤ) (w : Bool) :
    e ≠ .call (.waitpid wanted statusPointer writable options) w := by
  rintro rfl
  simp [Watch.allows, Watch.calls, hrunning] at hallowed

theorem starts_eq_some {h : Happening} {birth : ℕ} (hs : x.starts h = some (pid, birth)) :
    ∃ path loading w, h = .event (.call (.exec path loading) w) ∧ x.Running ∧
      0 < (spawnCurrent path loading x.sys).1 ∧
      pid = (spawnCurrent path loading x.sys).1.toNat ∧ birth = x.sys.births := by
  unfold Watch.starts at hs
  split at hs
  · rename_i path loading w
    dsimp only at hs
    split at hs
    · rename_i hpos
      obtain ⟨rfl, rfl⟩ := Prod.mk.inj (Option.some.inj hs)
      exact ⟨path, loading, w, rfl, hpos.1, hpos.2, rfl, rfl⟩
    · cases hs
  · cases hs

/-- **One happening** keeps the child where it is. -/
theorem Watching.next (hx : Watching x) {h : Happening} (hrun : x.sys.halted = false)
    (hallowed : x.allows h = true) : Watching (x.next pbkdf2 h) := by
  cases h with
  | check w =>
    obtain ⟨hsettles, hruns⟩ := deliverPendingSignal_spec w x.sys
    have hcore : ∀ i, SameIdentity (x.sys.cores i) ((deliverPendingSignal w x.sys).cores i) :=
      fun i => by
        obtain ⟨z, n, hi⟩ := hsettles.core i
        rw [hi]
        exact ⟨rfl, rfl, rfl, rfl, rfl⟩
    have hbirths : (deliverPendingSignal w x.sys).births = x.sys.births := hsettles.births
    refine ⟨SettlesWell.sound ⟨hsettles, hruns⟩ hx.sound, ?_, fun pid birth hchild => ?_⟩
    · exact hx.born.trans_eq hbirths.symm
    · obtain ⟨hlt, hslot⟩ := hx.child pid birth hchild
      refine ⟨hlt.trans_eq hbirths.symm, fun i hi hbi => ?_⟩
      obtain ⟨j, hj, hjbirth, hjpid, hjparent⟩ :=
        hslot i ((hcore i).active.symm.trans hi) ((hcore i).birth.symm.trans hbi)
      exact ⟨j, (hcore j).active.trans hj, (hcore j).birth.trans hjbirth, (hcore j).pid.trans hjpid,
        ((hcore j).parent.trans hjparent).trans (hcore i).pid.symm⟩
  | event e =>
    have hbirths : x.sys.births ≤ (step pbkdf2 e x.sys).births := births_le_step e x.sys
    have hsound : Sound (step pbkdf2 e x.sys) := hx.sound.step hrun e
    refine ⟨hsound, hx.born.trans_le hbirths, fun pid birth hchild => ?_⟩
    cases hstarted : x.starts (.event e) with
    | none =>
      have hold : x.child = some (pid, birth) := by simpa [Watch.next, hstarted] using hchild
      obtain ⟨hlt, hslot⟩ := hx.child pid birth hold
      refine ⟨hlt.trans_le hbirths, fun i hi hbi => ?_⟩
      exact child_stays hx.sound hrun (fun hself => not_waitpid hallowed ⟨hrun, hself⟩) hx.born
        hslot hi hbi
    | some new =>
      obtain ⟨rfl⟩ : new = (pid, birth) := by simpa [Watch.next, hstarted] using hchild
      obtain ⟨path, loading, w, he, hrunning, hpos, rfl, rfl⟩ := starts_eq_some hstarted
      obtain rfl := Happening.event.inj he
      obtain ⟨hpid, slot, -, hrest⟩ : (spawnCurrent path loading x.sys).1 = x.sys.nextPid ∧
          ∃ slot, x.sys.freeSlot = some slot ∧
            ((step pbkdf2 (.call (.exec path loading) w) x.sys).processes slot).rest =
              (x.sys.spawned path).rest := step_exec hpos w
      have hactive : ((step pbkdf2 (.call (.exec path loading) w) x.sys).processes slot).active =
          true := congrArg Process.active hrest
      have hbirth : ((step pbkdf2 (.call (.exec path loading) w) x.sys).processes
          slot).history.birth = x.sys.births := congrArg (·.history.birth) hrest
      refine ⟨hbirth ▸ hsound.identity.birth_lt slot hactive, fun i hi hbi => ?_⟩
      -- The supervisor is the one that runs, for there is only one with its number.
      obtain ⟨hiold, hisame⟩ := origin_of_birth_lt hx.sound hrun hi (hbi.trans_lt hx.born)
      have hself : i = x.sys.current :=
        hx.sound.identity.birth i x.sys.current hiold (hx.sound.runs hrun).1
          ((hisame.birth.symm.trans hbi).trans hrunning.2.symm)
      subst hself
      refine ⟨slot, hactive, hbirth, ?_, ?_⟩
      · rw [hpid]
        exact congrArg Process.pid hrest
      · exact (congrArg Process.parent hrest).trans hisame.pid.symm

theorem Watch.Reaches.watching (hx : Watch.Reaches pbkdf2 allowed x) : Watching x := by
  induction hx with
  | begin hs program i hi =>
    exact ⟨hs.sound, hs.sound.identity.birth_lt i hi.1, fun pid birth h => by cases h⟩
  | next _ h hrun hallowed ih => exact ih.next hrun hallowed

theorem Watching.processIsActive (hx : Watching x) (hrunning : x.Running) {birth : ℕ}
    (hchild : x.child = some (pid, birth)) : processIsActive pid x.sys = true := by
  obtain ⟨j, hj, -, hjpid, -⟩ :=
    (hx.child pid birth hchild).2 x.sys.current (hx.sound.runs hrunning.1).1 hrunning.2
  exact processIsActive_iff.mpr ⟨j, hj, hjpid⟩

/-- **Headline.** In every run of the supervisor among other processes, whenever it may make its
check, the check says what it should exactly if the child has not ended. -/
theorem sees_iff (hx : Watch.Reaches pbkdf2 allowed x) (hrunning : x.Running) :
    x.Sees ↔ ∀ pid birth, x.child = some (pid, birth) → Watch.Alive x.sys birth := by
  refine forall_congr' fun pid => forall_congr' fun birth => forall_congr' fun hchild => ?_
  rw [hx.watching.processIsActive hrunning hchild]
  simp

end Watching

/-- `init` has started a getty. -/
def started : Watch :=
  Watch.next (fun _ _ _ => none) (.event (.call (.exec "/sbin/getty" .loaded) true))
    ⟨.boot, "/sbin/getty", 0, none, true⟩

/-- The getty makes a call. -/
def startedThen (c : Call) : Watch := started.next (fun _ _ _ => none) (.event (.call c true))

theorem reaches_startedThen (c : Call) :
    Watch.Reaches (fun _ _ _ => none) (fun _ _ => True) (startedThen c) := by
  have hstarted : Watch.Reaches (fun _ _ _ => none) (fun _ _ => True) started :=
    (Watch.Reaches.begin .boot "/sbin/getty" 0 (by decide)).next _ (by decide) (by decide)
  have hother : ¬ started.Running := by decide +kernel
  exact hstarted.next (.event (.call c true)) (by decide +kernel) (by simp [Watch.allows, hother])

/-- The check is right about a getty that has yielded. -/
theorem sees_iff_sample : (startedThen .yield).Running ∧ (startedThen .yield).Sees := by
  have hrunning : (startedThen .yield).Running := by decide +kernel
  have hchild : (startedThen .yield).child = some (2, 1) := by decide +kernel
  refine ⟨hrunning, (sees_iff (reaches_startedThen .yield) hrunning).mpr fun pid birth h => ?_⟩
  obtain ⟨rfl, rfl⟩ := Prod.mk.inj (Option.some.inj (hchild.symm.trans h))
  exact ⟨1, by decide +kernel⟩

/-- The check says that a getty is there that has exited. -/
theorem getty_not_missed :
    Watch.Reaches (fun _ _ _ => none) (fun _ _ => True) (startedThen (.exit 0)) ∧
      (startedThen (.exit 0)).Running ∧ (startedThen (.exit 0)).child = some (2, 1) ∧
      ¬ Watch.Alive (startedThen (.exit 0)).sys 1 ∧
        processIsActive 2 (startedThen (.exit 0)).sys = true ∧
      ¬ (startedThen (.exit 0)).Sees := by
  have hchild : (startedThen (.exit 0)).child = some (2, 1) := by decide +kernel
  have hended : ¬ Watch.Alive (startedThen (.exit 0)).sys 1 := by
    unfold Watch.Alive
    decide +kernel
  have hactive : processIsActive 2 (startedThen (.exit 0)).sys = true := by decide +kernel
  refine ⟨reaches_startedThen _, by decide +kernel, hchild, hended, hactive, fun h => ?_⟩
  exact absurd (hactive.symm.trans ((h 2 1 hchild).mpr hended)) (by simp)

end ImagineOS.Init
