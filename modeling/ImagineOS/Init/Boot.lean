import ImagineOS.Init.Supervision

/-!
# Init: boot paths and the shutdown request

The kernel takes the poll for a shutdown request, and the call that turns the power off, from the
process with pid 1 only. `init` goes through its boot paths to the loop that polls; on two of them
it starts a program that is to go on in its place, the `init` of the real root or `horust`. But
`exec` creates a process, and the program gets another pid. So the process that supervises has pid 1
exactly if neither of the two was started (`serves_iff`).
-/

namespace ImagineOS.Init

open Exec Function

/-! ### The program -/

/-- What a process on the boot path does next. A getty is known by its pid. -/
inductive Role
  /-- `phase_two_started` -/
  | begins
  /-- It looks for `/sbin/init`. -/
  | findsInit
  | pivots
  | restarts
  /-- `run_supervisor` -/
  | announces
  /-- It reads `/etc/init`. -/
  | chooses
  | delegates
  /-- It looks for `/etc/display.on`. -/
  | findsDisplay
  | startsDisplay
  | startsPanel (display : ℕ)
  | waitsDisplay (display : ℕ)
  /-- The loop of `run_supervisor`. -/
  | checks (getty : ℕ)
  | startsGetty (getty : ℕ)
  | polls (getty : ℕ)
  | notifies (getty : ℕ)
  | powersOff (getty : ℕ)
  | yields (getty : ℕ)
  | exits
  /-- The program that it has started goes on. -/
  | idles
  /-- `horust` supervises. -/
  | horust
  deriving DecidableEq

namespace Role

/-- It supervises. -/
def supervises : Role → Bool
  | checks _ | startsGetty _ | polls _ | notifies _ | powersOff _ | yields _ | horust => true
  | _ => false

/-- The answers that the file system, the console or the list of processes may give it. -/
def asks (r : Role) (s : System) (yes : Bool) : Bool :=
  match r with
  | begins | findsInit | pivots | announces | chooses | findsDisplay | notifies _ => true
  | checks getty => yes == (getty != 0 && processIsActive getty s)
  | _ => false

/-- What it does after an answer. -/
def answered (r : Role) (yes : Bool) : Role :=
  match r with
  | begins => if yes then announces else findsInit
  | findsInit => if yes then pivots else announces
  | pivots => if yes then restarts else announces
  | announces => if yes then chooses else exits
  | chooses => if yes then delegates else findsDisplay
  | findsDisplay => if yes then startsDisplay else checks 0
  | checks getty => if yes then polls getty else startsGetty getty
  | notifies getty => if yes then powersOff getty else exits
  | r => r

/-- The calls that it makes. -/
def does (r : Role) (c : Call) : Bool :=
  match r, c with
  | restarts, .exec path _ => path == "/sbin/init"
  | delegates, .exec path _ => path == "/sbin/horust"
  | startsDisplay, .exec path _ => path == "/bin/display"
  | startsPanel _, .spawn path _ _ => path == "/bin/ede-panel"
  | waitsDisplay display, .waitpid wanted _ _ options => wanted == display && options == 0
  | waitsDisplay _, .yield => true
  | startsGetty _, .exec path _ => path == "/sbin/getty"
  | yields _, .yield => true
  | exits, .exit status => status == 1
  | idles, .yield => true
  | horust, _ => true
  | _, _ => false

/-- The program that is to go on in its place begins. -/
def starts (r : Role) (c : Call) (s : System) : Option Role :=
  match r, c with
  | restarts, .exec path loading =>
    if 0 < (spawnCurrent path loading s).1 then some begins else none
  | delegates, .exec path loading =>
    if 0 < (spawnCurrent path loading s).1 then some horust else none
  | _, _ => none

/-- What it does after a call. -/
def after (r : Role) (c : Call) (s : System) : Role :=
  match r, c with
  | restarts, c => if (restarts.starts c s).isSome then idles else announces
  | delegates, c => if (delegates.starts c s).isSome then idles else findsDisplay
  | startsDisplay, .exec path loading =>
    let pid := (spawnCurrent path loading s).1
    if 0 < pid then startsPanel pid.toNat else checks 0
  | startsPanel display, _ => waitsDisplay display
  | waitsDisplay display, .waitpid wanted statusPointer writable options =>
    if (waitpidCurrent wanted statusPointer writable options s).1 = -11 then waitsDisplay display
    else checks 0
  | startsGetty getty, .exec path loading =>
    let pid := (spawnCurrent path loading s).1
    if 0 < pid then polls pid.toNat else yields getty
  | yields getty, _ => checks getty
  | r, _ => r

theorem after_of_starts {r : Role} {c : Call} {s : System} (h : (r.starts c s).isSome) :
    r.after c s = idles := by
  cases r with
  | restarts | delegates => rw [after, if_pos h]
  | _ => simp [starts] at h

theorem starts_idles {c : Call} {s : System} : idles.starts c s = none := rfl

end Role

/-! ### The system -/

/-- The system while it boots, and after. -/
structure Boot where
  sys : System
  /-- The processes on the boot path, by the numbers of their creation. -/
  roles : ℕ → Option Role
  /-- A shutdown request is pending. -/
  requested : Bool
  off : Bool
  /-- A program that is to go on in place of the first process was started. -/
  started : Bool

/-- What happens. -/
inductive Moment
  | event (e : Event)
  /-- The running process gets an answer, after which its signals are delivered. -/
  | answer (yes writable : Bool)
  /-- `SYS_SHUTDOWN_REQUEST` -/
  | request (writable : Bool)
  /-- `SYS_SHUTDOWN_POLL` -/
  | poll (writable : Bool)
  /-- `SYS_POWER_OFF`, when the storage and ACPI do what they should if `works` is set. -/
  | powerOff (works writable : Bool)

namespace Boot

/-- The role of the running process. -/
def role (x : Boot) : Option Role := x.roles x.sys.self.history.birth

/-- The running process takes a role. -/
def setRole (x : Boot) (r : Role) : Boot :=
  { x with roles := Function.update x.roles x.sys.self.history.birth (some r) }

/-- The signals of the running process are delivered. -/
def deliver (x : Boot) (writable : Bool) : Boot :=
  { x with sys := deliverPendingSignal writable x.sys }

/-- `SYS_SHUTDOWN_REQUEST` -/
def shutdownRequest (x : Boot) : ℤ × Boot :=
  if x.sys.self.uid = 0 then (0, { x with requested := true }) else (-1, x)

/-- `SYS_SHUTDOWN_POLL` -/
def shutdownPoll (x : Boot) : ℤ × Boot :=
  if x.sys.self.pid ≠ 1 then (-1, x)
  else (if x.requested then 1 else 0, { x with requested := false })

/-- `SYS_POWER_OFF` -/
def powerOff (works : Bool) (x : Boot) : ℤ × Boot :=
  if x.sys.self.pid ≠ 1 then (-1, x)
  else if works then (0, { x with off := true })
  else (-5, x)

/-- What may happen: a process on the boot path does what it should, and the others what they like.
-/
def allows (x : Boot) (m : Moment) : Bool :=
  match m, x.role with
  | .event (.call c _), some r => r.does c
  | .answer yes _, some r => r.asks x.sys yes
  | .answer .., none => false
  | .request _, some r => r == .horust
  | .poll _, some (.polls _) => true
  | .poll _, some r => r == .horust
  | .powerOff .., some (.powersOff _) => true
  | .powerOff .., some r => r == .horust
  | _, _ => true

section Next

variable (pbkdf2 : List UInt8 → List UInt8 → ℕ → Option (List UInt8))

/-- What a call of a process on the boot path does. -/
def called (x : Boot) (r : Role) (c : Call) (writable : Bool) : Boot :=
  let child := r.starts c x.sys
  let roles := child.elim x.roles fun new => Function.update x.roles x.sys.births (some new)
  { x with
    sys := step pbkdf2 (.call c writable) x.sys
    roles := Function.update roles x.sys.self.history.birth (some (r.after c x.sys))
    started := x.started || child.isSome }

def next (m : Moment) (x : Boot) : Boot :=
  match m, x.role with
  | .event (.call c writable), some r => x.called pbkdf2 r c writable
  | .event e, _ => { x with sys := step pbkdf2 e x.sys }
  | .answer yes writable, some r => (x.setRole (r.answered yes)).deliver writable
  | .answer _ writable, none => x.deliver writable
  | .request writable, _ => x.shutdownRequest.2.deliver writable
  | .poll writable, some (.polls getty) =>
    let next := if x.shutdownPoll.1 = 1 then .notifies getty else .yields getty
    (x.shutdownPoll.2.setRole next).deliver writable
  | .poll writable, _ => x.shutdownPoll.2.deliver writable
  | .powerOff works writable, some (.powersOff getty) =>
    ((x.powerOff works).2.setRole (.yields getty)).deliver writable
  | .powerOff works writable, _ => (x.powerOff works).2.deliver writable

/-- The kernel has started `init`. -/
def start : Boot where
  sys := .boot
  roles := Function.update (fun _ => none) 0 (some .begins)
  requested := false
  off := false
  started := false

/-- The states that runs reach. -/
inductive Reaches : Boot → Prop
  | start : Reaches start
  | next {x : Boot} (h : Reaches x) (m : Moment) (hrun : x.sys.halted = false)
      (hon : x.off = false) (hallowed : x.allows m = true) : Reaches (x.next pbkdf2 m)

end Next

/-- The process in a slot supervises. -/
def Supervises (x : Boot) (i : Fin maxProcesses) : Prop :=
  x.sys.Live i ∧ ∃ r ∈ x.roles (x.sys.processes i).history.birth, r.supervises = true

/-- **The process in a slot can take the shutdown request**: it has pid 1, and when it runs, its
poll takes the request if there is one, and the power is not refused. -/
def Serves (x : Boot) (i : Fin maxProcesses) : Prop :=
  (x.sys.processes i).pid = 1 ∧
  (i = x.sys.current →
    x.shutdownPoll = (if x.requested then 1 else 0, { x with requested := false }) ∧
    ∀ works, (x.powerOff works).1 ≠ -1)

end Boot

/-! ### The first process -/

/-- `init` has its slot and its pid. -/
def First (s : System) : Prop :=
  ∃ i, (s.processes i).active = true ∧ (s.processes i).history.birth = 0 ∧ (s.processes i).pid = 1

/-- What is known about the processes on the boot path: as long as no program was started that is to
go on in place of the first process, it is the only one, and afterwards it idles. -/
structure Booting (x : Boot) : Prop where
  sound : Sound x.sys
  born : 0 < x.sys.births
  first : First x.sys
  role : x.started = false → ∀ b, x.roles b ≠ none → b = 0
  idles : x.started = true → x.roles 0 = some .idles

section Booting

variable {pbkdf2 : List UInt8 → List UInt8 → ℕ → Option (List UInt8)} {x : Boot} {r : Role}
  {i : Fin maxProcesses}

theorem First.step {s : System} (h : First s) (hs : Sound s)
    (hrun : s.halted = false) (e : Event) : First (step pbkdf2 e s) := by
  obtain ⟨i, hi, hbirth, hpid⟩ := h
  have hnew : ((Exec.step pbkdf2 e s).processes i).active = true := by
    refine (step_stays hs hrun hi).resolve_right fun ⟨_, hparent, _⟩ => ?_
    have hinit : (s.processes i).parent < (s.processes i).pid := hs.identity.parent i hi
    have hself : s.self.parent < s.self.pid := hs.identity.parent s.current (hs.runs hrun).1
    omega
  have hsame : SameIdentity (s.cores i) ((Exec.step pbkdf2 e s).cores i) := by
    refine ((step_origin hs hrun hnew).resolve_right fun h => ?_).2
    exact absurd (hi.symm.trans (freeSlot_inactive h.1)) (by simp)
  exact ⟨i, hnew, hsame.birth.trans hbirth, hsame.pid.trans hpid⟩

theorem First.settles {s s' : System} (h : First s) (hsettles : Settles s s') : First s' := by
  obtain ⟨i, hi, hbirth, hpid⟩ := h
  obtain ⟨z, n, hcore⟩ := hsettles.core i
  exact ⟨i, (congrArg Core.active hcore).trans hi, (congrArg (·.history.birth) hcore).trans hbirth,
    (congrArg Core.pid hcore).trans hpid⟩

theorem Booting.deliver (h : Booting x) (writable : Bool) : Booting (x.deliver writable) := by
  obtain ⟨hsettles, hruns⟩ := deliverPendingSignal_spec writable x.sys
  have hbirths : (deliverPendingSignal writable x.sys).births = x.sys.births := hsettles.births
  exact ⟨SettlesWell.sound ⟨hsettles, hruns⟩ h.sound, h.born.trans_eq hbirths.symm,
    h.first.settles hsettles, h.role, h.idles⟩

@[simp] theorem roles_setRole_self (x : Boot) (r : Role) :
    (x.setRole r).roles x.sys.self.history.birth = some r := update_self _ _ _

theorem roles_setRole_of_ne {b : ℕ} (h : b ≠ x.sys.self.history.birth) :
    (x.setRole r).roles b = x.roles b := update_of_ne h _ _

theorem Booting.setRole (h : Booting x) {old : Role} (hrole : x.role = some old)
    (hidles : old = .idles → r = .idles) : Booting (x.setRole r) := by
  refine ⟨h.sound, h.born, h.first, fun hstarted b hb => ?_, fun hstarted => ?_⟩
  · by_cases hself : b = x.sys.self.history.birth
    · rw [hself]
      exact h.role hstarted _ (by rw [← Boot.role, hrole]; simp)
    · exact h.role hstarted b (by rwa [roles_setRole_of_ne hself] at hb)
  · by_cases hself : 0 = x.sys.self.history.birth
    · have hold : some old = some .idles := by
        rw [← hrole, Boot.role, ← hself]
        exact h.idles hstarted
      rw [hself, roles_setRole_self, hidles (Option.some.inj hold)]
    · rw [roles_setRole_of_ne hself]
      exact h.idles hstarted

theorem Booting.step (h : Booting x) (hrun : x.sys.halted = false) (e : Event) :
    Booting { x with sys := Exec.step pbkdf2 e x.sys } :=
  ⟨h.sound.step hrun e, h.born.trans_le (births_le_step e x.sys),
    h.first.step h.sound hrun e, h.role, h.idles⟩

/-- A call of a process on the boot path: if it starts a program that goes on in its place, it is
the first process, and idles. -/
theorem Booting.called (h : Booting x) (hrun : x.sys.halted = false) (hrole : x.role = some r)
    (c : Call) (writable : Bool) : Booting (x.called pbkdf2 r c writable) := by
  have hstep : Booting { x with sys := Exec.step pbkdf2 (.call c writable) x.sys } :=
    h.step hrun _
  cases hchild : r.starts c x.sys with
  | none =>
    have hset : Booting { x.setRole (r.after c x.sys) with
        sys := Exec.step pbkdf2 (.call c writable) x.sys } :=
      (h.setRole hrole fun hr => by rw [hr]; rfl).step hrun _
    simpa [Boot.called, Boot.setRole, hchild] using hset
  | some new =>
    have hafter : r.after c x.sys = .idles := Role.after_of_starts (by rw [hchild]; rfl)
    have hbusy : r ≠ .idles := fun hr => by
      rw [hr, Role.starts_idles] at hchild
      cases hchild
    refine ⟨hstep.sound, hstep.born, hstep.first, fun hstarted => ?_, fun _ => ?_⟩
    · simp [Boot.called, hchild] at hstarted
    have hroles : (x.called pbkdf2 r c writable).roles =
        update (update x.roles x.sys.births (some new))
          x.sys.self.history.birth (some (r.after c x.sys)) := by
      simp [Boot.called, hchild]
    rw [hroles]
    cases hold : x.started with
    | false =>
      -- Nothing was started before, so this is the first process.
      have hself : x.sys.self.history.birth = 0 :=
        h.role hold _ (by rw [← Boot.role, hrole]; simp)
      rw [hself, update_self, hafter]
    | true =>
      have hself : 0 ≠ x.sys.self.history.birth := fun hself => by
        rw [Boot.role, ← hself, h.idles hold] at hrole
        exact hbusy (Option.some.inj hrole).symm
      rw [update_of_ne hself, update_of_ne h.born.ne]
      exact h.idles hold

theorem Booting.withRequest (h : Booting x) (requested off : Bool) :
    Booting { x with requested := requested, off := off } :=
  ⟨h.sound, h.born, h.first, h.role, h.idles⟩

theorem Booting.shutdownRequest (h : Booting x) : Booting x.shutdownRequest.2 := by
  rw [Boot.shutdownRequest]
  split
  · exact h.withRequest true x.off
  · exact h

theorem Booting.shutdownPoll (h : Booting x) : Booting x.shutdownPoll.2 := by
  rw [Boot.shutdownPoll]
  split
  · exact h
  · exact h.withRequest false x.off

theorem Booting.powerOff (h : Booting x) (works : Bool) : Booting (x.powerOff works).2 := by
  rw [Boot.powerOff]
  split
  · exact h
  split
  · exact h.withRequest x.requested true
  · exact h

theorem role_shutdownPoll (x : Boot) : x.shutdownPoll.2.role = x.role := by
  rw [Boot.shutdownPoll]
  split <;> rfl

theorem role_powerOff (works : Bool) (x : Boot) : (x.powerOff works).2.role = x.role := by
  rw [Boot.powerOff]
  split
  · rfl
  split <;> rfl

/-- **One moment** keeps what is known about the boot path. -/
theorem Booting.next (h : Booting x) {m : Moment} (hrun : x.sys.halted = false)
    (hallowed : x.allows m = true) : Booting (x.next pbkdf2 m) := by
  unfold Boot.next
  split
  · rename_i c writable r hrole
    exact h.called hrun hrole c writable
  · exact h.step hrun _
  · rename_i yes writable r hrole
    refine (h.setRole hrole fun hr => ?_).deliver writable
    simp [Boot.allows, hrole, hr, Role.asks] at hallowed
  · exact h.deliver _
  · exact h.shutdownRequest.deliver _
  · rename_i writable getty hrole
    refine (h.shutdownPoll.setRole ((role_shutdownPoll x).trans hrole)
      fun hr => ?_).deliver writable
    cases hr
  · exact h.shutdownPoll.deliver _
  · rename_i works writable getty hrole
    refine ((h.powerOff works).setRole ((role_powerOff works x).trans hrole) fun hr => ?_).deliver
      writable
    cases hr
  · exact (h.powerOff _).deliver _

theorem Booting.start : Booting .start := by
  refine ⟨boot_sound, by decide, ⟨0, rfl, rfl, rfl⟩, fun _ b hb => ?_, fun h => by cases h⟩
  by_contra hne
  exact hb (by simp [Boot.start, hne])

theorem Boot.Reaches.booting (h : Boot.Reaches pbkdf2 x) : Booting x := by
  induction h with
  | start => exact .start
  | next _ m hrun _ hallowed ih => exact ih.next hrun hallowed

/-! ### Who supervises -/

theorem Boot.serves_of_pid (h : (x.sys.processes i).pid = 1) : x.Serves i := by
  refine ⟨h, fun hi => ?_⟩
  have hself : ¬ x.sys.self.pid ≠ 1 := by
    rw [System.self, ← hi, h]
    simp
  refine ⟨by rw [Boot.shutdownPoll, if_neg hself], fun works => ?_⟩
  rw [Boot.powerOff, if_neg hself]
  cases works <;> simp

theorem First.pid_iff {s : System} (h : First s) (hs : Sound s)
    (hi : (s.processes i).active = true) :
    (s.processes i).pid = 1 ↔ (s.processes i).history.birth = 0 := by
  obtain ⟨j, hj, hbirth, hpid⟩ := h
  refine ⟨fun h => ?_, fun h => ?_⟩
  · rw [hs.identity.pid i j hi hj (h.trans hpid.symm)]
    exact hbirth
  · rw [hs.identity.birth i j hi hj (h.trans hbirth.symm)]
    exact hpid

/-- **Headline.** On every boot path and in every run after it, a process that supervises can take
the shutdown request if and only if no program was started that is to go on in place of the first
process: neither the `init` of the real root nor `horust`. -/
theorem serves_iff (hx : Boot.Reaches pbkdf2 x) (hi : x.Supervises i) :
    x.Serves i ↔ x.started = false := by
  have h := hx.booting
  obtain ⟨hlive, r, hr, hsupervises⟩ := hi
  have hpid := h.first.pid_iff h.sound hlive.1
  refine ⟨fun hserves => ?_, fun hstarted => ?_⟩
  · -- The first process supervises, so it does not idle.
    by_contra hstarted
    rw [Bool.not_eq_false] at hstarted
    rw [hpid.mp hserves.1, h.idles hstarted] at hr
    obtain rfl := Option.some.inj hr
    cases hsupervises
  · refine Boot.serves_of_pid (hpid.mpr (h.role hstarted _ ?_))
    rw [Option.mem_def.mp hr]
    simp

end Booting

/-! ### Two boots -/

/-- The moments of a list, one after another. -/
def Boot.run : List Moment → Boot → Boot
  | [], x => x
  | m :: rest, x => run rest (x.next (fun _ _ _ => none) m)

/-- Every moment of a list may happen. -/
def Boot.mayRun : List Moment → Boot → Bool
  | [], _ => true
  | m :: rest, x =>
    !x.sys.halted && !x.off && x.allows m && mayRun rest (x.next (fun _ _ _ => none) m)

theorem Boot.Reaches.run {x : Boot} (h : Boot.Reaches (fun _ _ _ => none) x) {moments : List Moment}
    (hmay : x.mayRun moments = true) : Boot.Reaches (fun _ _ _ => none) (x.run moments) := by
  induction moments generalizing x with
  | nil => exact h
  | cons m rest ih =>
    simp only [Boot.mayRun, Bool.and_eq_true, Bool.not_eq_true'] at hmay
    exact ih (h.next m hmay.1.1.1 hmay.1.1.2 hmay.1.2) hmay.2

/-- There is no real root, and `init` starts a getty, after which it polls. -/
def textBoot : List Moment :=
  [.answer false true, .answer false true, .answer true true, .answer false true,
    .answer false true, .answer false true, .event (.call (.exec "/sbin/getty" .loaded) true),
    .request true, .event (.call .yield true)]

/-- The root is pivoted, and `init` of the real root does the same. -/
def rootBoot : List Moment :=
  [.answer false true, .answer true true, .answer true true,
    .event (.call (.exec "/sbin/init" .loaded) true), .answer true true, .answer true true,
    .answer false true, .answer false true, .answer false true,
    .event (.call (.exec "/sbin/getty" .loaded) true), .request true,
    .event (.call .yield true), .event (.call .yield true)]

/-- Without a real root, the request is taken. -/
theorem serves_iff_sample :
    (Boot.start.run textBoot).requested = true ∧
      (Boot.start.run textBoot).Serves (Boot.start.run textBoot).sys.current := by
  have hreaches : Boot.Reaches (fun _ _ _ => none) (Boot.start.run textBoot) :=
    Boot.Reaches.start.run (by decide +kernel)
  have hsupervises :
      (Boot.start.run textBoot).Supervises (Boot.start.run textBoot).sys.current :=
    ⟨by decide +kernel, .polls 2, by decide +kernel, rfl⟩
  exact ⟨by decide +kernel, (serves_iff hreaches hsupervises).mpr (by decide +kernel)⟩

/-- With a real root, `init` that polls has pid 2, and is refused: the request stays. -/
theorem request_stays :
    Boot.Reaches (fun _ _ _ => none) (Boot.start.run rootBoot) ∧
      (Boot.start.run rootBoot).Supervises (Boot.start.run rootBoot).sys.current ∧
      (Boot.start.run rootBoot).sys.self.pid = 2 ∧
      (Boot.start.run rootBoot).allows (.poll true) = true ∧
      (Boot.start.run rootBoot).shutdownPoll.1 = -1 ∧
      (Boot.start.run rootBoot).shutdownPoll.2.requested = true ∧
      ¬ (Boot.start.run rootBoot).Serves (Boot.start.run rootBoot).sys.current := by
  refine ⟨Boot.Reaches.start.run (by decide +kernel),
    ⟨by decide +kernel, .polls 3, by decide +kernel,
    rfl⟩, by decide +kernel, by decide +kernel, by decide +kernel, by decide +kernel, fun h => ?_⟩
  exact absurd h.1 (by decide +kernel)

end ImagineOS.Init
