import ImagineOS.Exec.Slots

/-!
# Processes: the status of a child

A parent learns from `waitpid` how its child has ended, as a status word whose upper eight bits are
the exit code and whose lower bits are for a signal. The kernel passes on the status of the exit
call; but `exit` of the api makes this call without its argument, and a process that a signal or a
fault ends keeps the status zero. So a parent is told the right thing of a child that has called
`exit` of the api exactly if its code was zero, and of a child that was ended otherwise never
(`status_iff`).
-/

namespace ImagineOS.Exec

namespace Api

/-- `exit`: the call that it makes. The argument is not passed on. -/
def exit (_status : ℤ) : Call := .exit 0

def exitCode (status : ℤ) : ℤ := status / 256 % 256

end Api

/-- How a process has ended. -/
inductive Ending
  /-- It has called `exit` of the api. -/
  | exited (status : ℤ)
  /-- It has made the exit call itself. -/
  | called (status : ℤ)
  /-- A signal or a fault has ended it. -/
  | killed
  deriving DecidableEq

namespace Ending

/-- The status that is kept for the parent. -/
def status : Ending → ℤ
  | exited _ | killed => 0
  | called status => status

/-- A status word of a normal exit. -/
def Normal (word : ℤ) : Prop := ∃ code, word = statusValue code

/-- The parent should be told the exit code, or that the child did not exit. -/
def Told : Ending → ℤ → Prop
  | exited status, word | called status, word =>
    Normal word ∧ Api.exitCode word = status % 256
  | killed, word => ¬ Normal word

/-- When this is so. -/
def isTold : Ending → Bool
  | exited status => status % 256 = 0
  | called _ => true
  | killed => false

end Ending

/-- What the process that runs does next. -/
inductive Deed
  /-- It calls `exit` of the api. -/
  | exit (status : ℤ) (writable : Bool)
  | event (e : Event)

namespace Deed

def toEvent : Deed → Event
  | exit status writable => .call (Api.exit status) writable
  | event e => e

/-- How the process ends, if it does. -/
def ending : Deed → Ending
  | exit status _ => .exited status
  | event (.call (.exit status) _) => .called status
  | event _ => .killed

end Deed

section Recorded

variable (pbkdf2 : List UInt8 → List UInt8 → ℕ → Option (List UInt8))

/-- A process ends with the event. -/
def Ends (e : Event) (s : System) (i : Fin maxProcesses) : Prop :=
  s.Live i ∧ ¬ (step pbkdf2 e s).Live i

instance (e : Event) (s : System) (i : Fin maxProcesses) : Decidable (Ends pbkdf2 e s i) :=
  inferInstanceAs (Decidable (_ ∧ _))

/-- How the processes have ended, by the numbers of their creation. -/
def endingsAfter (d : Deed) (s : System) (endings : ℕ → Option Ending) (b : ℕ) : Option Ending :=
  if ∃ i, Ends pbkdf2 d.toEvent s i ∧ (s.processes i).history.birth = b then
    some (if s.self.history.birth = b then d.ending else .killed)
  else endings b

/-- Runs that remember how the processes have ended. -/
inductive Recorded : System → (ℕ → Option Ending) → Prop
  | boot : Recorded .boot fun _ => none
  | step {s : System} {endings : ℕ → Option Ending} (h : Recorded s endings) (d : Deed)
      (hrun : s.halted = false) :
      Recorded (Exec.step pbkdf2 d.toEvent s) (endingsAfter pbkdf2 d s endings)

end Recorded

/-! ### What is kept -/

/-- Whoever runs has the status zero, and whoever has ended has the status of its ending, also when
it was collected. -/
structure Remembered (s : System) (endings : ℕ → Option Ending) : Prop where
  live : ∀ i, s.Live i → (s.processes i).exitStatus = 0
  ended : ∀ i, (s.processes i).active = true → (s.processes i).zombie = true → ∀ ending,
    endings (s.processes i).history.birth = some ending → (s.processes i).exitStatus = ending.status
  collected : ∀ entry ∈ s.collected, ∀ ending, endings entry.1 = some ending →
    entry.2.2 = statusValue ending.status
  lt : ∀ b ending, endings b = some ending → b < s.births

section Steps

variable {pbkdf2 : List UInt8 → List UInt8 → ℕ → Option (List UInt8)} {e : Event} {s : System}
  {i : Fin maxProcesses} {endings : ℕ → Option Ending} {d : Deed} {b : ℕ} {ending : Ending}

theorem Change.exitStatus {p : Process} (h : Change e s i p) :
    (p.active = (s.processes i).active ∧ p.history.birth = (s.processes i).history.birth ∧
      p.exitStatus = (s.processes i).exitStatus) ∨
    (i = s.current ∧ p.history.birth = (s.processes i).history.birth ∧
      ((∃ status w, e = .call (.exit status) w ∧ p.exitStatus = status) ∨ p.exitStatus = 0)) ∨
    (s.freeSlot = some i ∧ p.history.birth = s.births ∧ p.exitStatus = 0) ∨
    p.active = false := by
  cases h with
  | kept => exact Or.inl ⟨rfl, rfl, rfl⟩
  | exited he hi =>
    subst hi
    exact Or.inr (Or.inl ⟨rfl, rfl, Or.inl ⟨_, _, he, rfl⟩⟩)
  | identified hi | handles _ hi _ =>
    subst hi
    exact Or.inl ⟨rfl, rfl, rfl⟩
  | replaced _ hi =>
    subst hi
    exact Or.inr (Or.inl ⟨rfl, rfl, Or.inr rfl⟩)
  | spawned _ hslot | forked _ hslot => exact Or.inr (Or.inr (Or.inl ⟨hslot, rfl, rfl⟩))
  | collected => exact Or.inr (Or.inr (Or.inr rfl))

theorem step_collected (hs : Sound s) {entry : ℕ × ℕ × ℤ}
    (h : entry ∈ (step pbkdf2 e s).collected) : entry ∈ s.collected ∨
      ∃ i, (s.processes i).active = true ∧ (s.processes i).zombie = true ∧
        entry.1 = (s.processes i).history.birth ∧
        entry.2.2 = statusValue (s.processes i).exitStatus := by
  obtain ⟨s₁, hact, hsettles⟩ : Does pbkdf2 e s (step pbkdf2 e s) := step_spec e s
  rw [hsettles.1.collected] at h
  cases hact with
  | kept hkept _ | opened _ hkept _ => exact Or.inl (hkept.collected ▸ h)
  | spawned | forked | replaced | elevated | identified => exact Or.inl h
  | @collected _ _ _ _ _ _ child slot hchild hzombie hslot hpid =>
    obtain rfl := hs.slot_eq hchild hslot hpid
    rcases List.mem_append.mp h with h | h
    · exact Or.inl h
    · rw [List.mem_singleton.mp h]
      exact Or.inr ⟨slot, hslot, hzombie, rfl, rfl⟩
  | blocked _ _ _ hkept _ => exact Or.inl (hkept.collected ▸ h)

theorem births_le_step (e : Event) (s : System) : s.births ≤ (step pbkdf2 e s).births := by
  obtain ⟨s₁, hact, hsettles⟩ : Does pbkdf2 e s (step pbkdf2 e s) := step_spec e s
  have hbirths : (step pbkdf2 e s).births = s₁.births :=
    hsettles.1.induction (I := fun t => t.births = s₁.births) (fun t t' h ht => by
      rcases h with h | h
      · exact h.births.trans ht
      · exact h.births.trans ht) rfl
  rw [hbirths]
  cases hact with
  | kept h _ | opened _ h _ => exact h.births.ge
  | spawned | forked => exact Nat.le_succ _
  | replaced | elevated | identified | collected => exact le_rfl
  | blocked _ _ _ h _ => exact h.births.ge

theorem endingsAfter_of_not_live (h : ∀ i, s.Live i → (s.processes i).history.birth ≠ b) :
    endingsAfter pbkdf2 d s endings b = endings b := by
  rw [endingsAfter, if_neg]
  rintro ⟨i, hi, hb⟩
  exact h i hi.1 hb

theorem endingsAfter_of_ended (hs : Sound s) (hi : (s.processes i).active = true)
    (hzombie : (s.processes i).zombie = true) :
    endingsAfter pbkdf2 d s endings (s.processes i).history.birth =
      endings (s.processes i).history.birth := by
  refine endingsAfter_of_not_live fun j hj hb => ?_
  obtain rfl := hs.identity.birth j i hj.1 hi hb
  exact absurd (hzombie.symm.trans hj.2) (by simp)

theorem status_of_endingsAfter (hs : Sound s) (hrun : s.halted = false) (hi : s.Live i)
    (hended : ¬ (step pbkdf2 d.toEvent s).Live i)
    (h : endingsAfter pbkdf2 d s endings (s.processes i).history.birth = some ending) :
    (i = s.current ∧ ending = d.ending) ∨ (i ≠ s.current ∧ ending = .killed) := by
  rw [endingsAfter, if_pos ⟨i, ⟨hi, hended⟩, rfl⟩] at h
  by_cases hcurrent : i = s.current
  · subst hcurrent
    have hself : s.self.history.birth = (s.processes s.current).history.birth := rfl
    rw [if_pos hself] at h
    exact Or.inl ⟨rfl, (Option.some.inj h).symm⟩
  · have hne : s.self.history.birth ≠ (s.processes i).history.birth := fun hb =>
      hcurrent (hs.identity.birth s.current i (hs.runs hrun).1 hi.1 hb).symm
    rw [if_neg hne] at h
    exact Or.inr ⟨hcurrent, (Option.some.inj h).symm⟩

theorem Deed.status_ending (d : Deed) :
    (∃ status w, d.toEvent = .call (.exit status) w ∧ d.ending.status = status) ∨
      ((∀ status w, d.toEvent ≠ .call (.exit status) w) ∧ d.ending.status = 0) := by
  cases d with
  | exit status w => exact Or.inl ⟨0, w, rfl, rfl⟩
  | event e =>
    cases e with
    | tick | fault => exact Or.inr ⟨nofun, rfl⟩
    | call c w =>
      cases c with
      | exit status => exact Or.inl ⟨status, w, rfl, rfl⟩
      | yield | authenticate | kill | sigaction | sigreturn | exec | execve | spawn | fork | waitpid
      | «open» | close | dup | dup2 | pipe => exact Or.inr ⟨nofun, rfl⟩

/-- The status of a process that ends. -/
theorem Remembered.exitStatus_of_ends (h : Remembered s endings) (hs : Sound s)
    (hrun : s.halted = false) (hi : s.Live i)
    (hactive : ((step pbkdf2 d.toEvent s).processes i).active = true)
    (hended : ¬ (step pbkdf2 d.toEvent s).Live i)
    (hending : endingsAfter pbkdf2 d s endings (s.processes i).history.birth = some ending) :
    ((step pbkdf2 d.toEvent s).processes i).exitStatus = ending.status := by
  -- Only who exits has a status.
  have hzero : (i = s.current → ∀ status w, d.toEvent ≠ .call (.exit status) w) →
      ((step pbkdf2 d.toEvent s).processes i).exitStatus = 0 := fun hexit => by
    rcases (step_change pbkdf2 d.toEvent s i).exitStatus with ⟨-, -, hstatus⟩ |
      ⟨hcurrent, -, ⟨status, w, he, -⟩ | hstatus⟩ | ⟨hslot, -, hstatus⟩ | hgone
    · exact hstatus.trans (h.live i hi)
    · exact absurd he (hexit hcurrent status w)
    · exact hstatus
    · exact hstatus
    · exact absurd (hactive.symm.trans hgone) (by simp)
  rcases status_of_endingsAfter hs hrun hi hended hending with ⟨rfl, rfl⟩ | ⟨hcurrent, rfl⟩
  · rcases d.status_ending with ⟨status, w, he, hstatus⟩ | ⟨hexit, hstatus⟩
    · rw [hstatus, he]
      exact congrArg Process.exitStatus (step_exit status w s).2
    · rw [hstatus]
      exact hzero fun _ => hexit
  · exact hzero fun hi => absurd hi hcurrent

/-- **One step** keeps what is remembered. -/
theorem Remembered.step (h : Remembered s endings) (hs : Sound s) (hrun : s.halted = false)
    (d : Deed) :
    Remembered (step pbkdf2 d.toEvent s) (endingsAfter pbkdf2 d s endings) := by
  have hborn : ∀ b ending, endingsAfter pbkdf2 d s endings b = some ending → b < s.births :=
    fun b ending hb => by
      rw [endingsAfter] at hb
      split at hb
      · rename_i hends
        obtain ⟨i, hi, rfl⟩ := hends
        exact hs.identity.birth_lt i hi.1.1
      · exact h.lt b ending hb
  refine ⟨fun i hi => ?_, fun i hactive hzombie ending hending => ?_,
    fun entry hentry ending hending =>
    ?_, fun b ending hb => (hborn b ending hb).trans_le (births_le_step _ s)⟩
  · have hlive : (s.processes i).active = true → s.Live i := fun hactive => by
      refine ⟨hactive, Bool.eq_false_iff.mpr fun hzombie => ?_⟩
      exact absurd (hi.2.symm.trans (step_zombie hs hrun hactive hzombie hi.1)) (by simp)
    rcases (step_change pbkdf2 d.toEvent s i).exitStatus with ⟨hactive, -, hstatus⟩ |
      ⟨rfl, -, ⟨status, w, he, -⟩ | hstatus⟩ | ⟨-, -, hstatus⟩ | hgone
    · exact hstatus.trans (h.live i (hlive (hactive.symm.trans hi.1)))
    · rw [he] at hi
      exact absurd (hi.2.symm.trans (step_exit status w s).1) (by simp)
    · exact hstatus
    · exact hstatus
    · exact absurd (hi.1.symm.trans hgone) (by simp)
  · by_cases hlive : s.Live i
    · have hended : ¬ (Exec.step pbkdf2 d.toEvent s).Live i := fun hi =>
        absurd (hi.2.symm.trans hzombie) (by simp)
      refine h.exitStatus_of_ends hs hrun hlive hactive hended ?_
      rcases (step_change pbkdf2 d.toEvent s i).exitStatus with ⟨-, hbirth, -⟩ |
        ⟨-, hbirth, -⟩ | ⟨hslot, -, -⟩ | hgone
      · exact hbirth ▸ hending
      · exact hbirth ▸ hending
      · exact absurd (hlive.1.symm.trans (freeSlot_inactive hslot)) (by simp)
      · exact absurd (hactive.symm.trans hgone) (by simp)
    · rcases (step_change pbkdf2 d.toEvent s i).exitStatus with
        ⟨hold, hbirth, hstatus⟩ | ⟨rfl, -, -⟩ | ⟨-, hbirth, -⟩ | hgone
      · have hold : (s.processes i).active = true := hold.symm.trans hactive
        have hended : (s.processes i).zombie = true := by
          by_contra hz
          exact hlive ⟨hold, Bool.eq_false_iff.mpr hz⟩
        rw [show ((Exec.step pbkdf2 d.toEvent s).processes i).history.birth = _ from hbirth,
          endingsAfter_of_ended hs hold hended] at hending
        exact hstatus.trans (h.ended i hold hended ending hending)
      · exact absurd ⟨(hs.runs hrun).1, (hs.runs hrun).2.1⟩ hlive
      · rw [show ((Exec.step pbkdf2 d.toEvent s).processes i).history.birth = _ from
          hbirth] at hending
        exact absurd (hborn _ _ hending) (lt_irrefl _)
      · exact absurd (hactive.symm.trans hgone) (by simp)
  · rcases step_collected hs hentry with hold | ⟨i, hi, hzombie, hbirth, hstatus⟩
    · rw [endingsAfter_of_not_live fun i hi => hs.identity.collected_gone entry.1
        (List.mem_map_of_mem hold) i hi.1] at hending
      exact h.collected entry hold ending hending
    · rw [hbirth, endingsAfter_of_ended hs hi hzombie] at hending
      rw [hstatus, h.ended i hi hzombie ending hending]

theorem Recorded.run (h : Recorded pbkdf2 s endings) : Run pbkdf2 (fun _ _ => True) s := by
  induction h with
  | boot => exact .boot
  | step _ d hrun ih => exact .step ih _ hrun trivial

theorem Recorded.remembered (h : Recorded pbkdf2 s endings) : Remembered s endings := by
  induction h with
  | boot =>
    refine ⟨fun i _ => ?_, fun _ _ _ _ hending => (by cases hending), nofun, nofun⟩
    by_cases hi : i = 0 <;> simp [System.boot, hi, loadElf, Process.empty]
  | step h d hrun ih => exact ih.step h.run.sound hrun d

/-! ### What the parent is told -/

theorem exitCode_statusValue (status : ℤ) : Api.exitCode (statusValue status) = status % 256 := by
  rw [Api.exitCode, statusValue]
  omega

theorem Ending.told_iff (ending : Ending) :
    ending.Told (statusValue ending.status) ↔ ending.isTold = true := by
  have hnormal : Normal (statusValue ending.status) := ⟨_, rfl⟩
  cases ending with
  | exited status =>
    rw [Ending.status] at hnormal ⊢
    rw [Told, exitCode_statusValue, isTold, decide_eq_true_eq]
    exact ⟨fun h => h.2.symm, fun h => ⟨hnormal, h.symm⟩⟩
  | called status => exact iff_of_true ⟨hnormal, exitCode_statusValue _⟩ rfl
  | killed => exact iff_of_false (fun h => h hnormal) (by simp [isTold])

/-- **Headline.** In every run, a parent that has waited for a child was told the right thing of its
ending if and only if the child has called `exit` of the api with a multiple of 256, or has made the
exit call itself. -/
theorem status_iff (h : Recorded pbkdf2 s endings) {b c : ℕ} {w : ℤ} {e : Ending}
    (hcollected : (b, c, w) ∈ s.collected) (hending : endings b = some e) :
    e.Told w ↔ e.isTold = true := by
  obtain rfl : w = statusValue e.status := h.remembered.collected _ hcollected e hending
  exact e.told_iff

/-- A child calls `exit` of the api with 256, and its parent is told 0. -/
theorem status_iff_sample :
    ∃ s endings, Recorded (fun _ _ _ => none) s endings ∧ endings 1 = some (.exited 256) ∧
      (Ending.exited 256).Told 0 := by
  have hboot : Recorded (fun _ _ _ => none) .boot fun _ => none := .boot
  have hcollected := (((hboot.step (.event (.call (.fork true) true)) (by decide)).step
    (.event (.call (.waitpid 2 4096 true 0) true)) (by decide +kernel)).step (.exit 256 true)
    (by decide +kernel)).step (.event (.call (.waitpid 2 4096 true 0) true)) (by decide +kernel)
  have htold := fun (birth collector : ℕ) (word : ℤ) hmem hending =>
    (status_iff hcollected (b := birth) (c := collector) (w := word)
      (e := .exited 256) hmem hending).mpr rfl
  exact ⟨_, _, hcollected, by decide +kernel, htold 1 0 0 (by decide +kernel) (by decide +kernel)⟩

/-- A child calls `exit` of the api with 7, and its parent is told 0. -/
theorem exit_forgotten :
    ∃ s endings, Recorded (fun _ _ _ => none) s endings ∧ (1, 0, 0) ∈ s.collected ∧
      endings 1 = some (.exited 7) ∧ ¬ (Ending.exited 7).Told 0 := by
  have hboot : Recorded (fun _ _ _ => none) .boot fun _ => none := .boot
  refine ⟨_, _, (((hboot.step (.event (.call (.fork true) true)) (by decide)).step
    (.event (.call (.waitpid 2 4096 true 0) true)) (by decide +kernel)).step (.exit 7 true)
    (by decide +kernel)).step (.event (.call (.waitpid 2 4096 true 0) true)) (by decide +kernel),
    by decide +kernel, by decide +kernel, fun h => ?_⟩
  have hcode : Api.exitCode 0 = 7 % 256 := h.2
  exact absurd hcode (by decide)

end Steps

end ImagineOS.Exec
