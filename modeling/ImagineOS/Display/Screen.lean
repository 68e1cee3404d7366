import ImagineOS.Display.Events

/-!
# Display: who owns the screen

The display server takes the screen with `SYS_CONSOLE_RELEASE`: the console of the kernel stops
drawing, and input goes to the queue of the server. Both are given back when a process ends,
whichever it is: the kernel does not ask whether it was the server. So the server owns the screen as
long as it lives only if nobody else ends meanwhile, and `init` does not try in vain to turn the
power off (`held_of_spares`, `screen_lost`).
-/

namespace ImagineOS.Display

open Exec

/-! ### The screen -/

/-- The console and the input, among the processes. -/
structure Screen where
  sys : System
  /-- `Queue::captured` -/
  captured : Bool
  /-- `Console::active` -/
  active : Bool
  /-- `Surfaces::server_pid` -/
  serverPid : ℕ

namespace Screen

/-- `SYS_CONSOLE_RELEASE` -/
def consoleRelease (x : Screen) : Screen :=
  { x with active := false, captured := true, serverPid := x.sys.self.pid }

/-- `power_off`, as far as it returns: the disk could be flushed if `flushed` is set. -/
def powerOff (flushed : Bool) (x : Screen) : Screen :=
  if flushed then { x with captured := false, active := true } else x

/-- `SYS_POWER_OFF`, when the machine stays on. -/
def callPowerOff (flushed : Bool) (x : Screen) : ℤ × Screen :=
  if x.sys.self.pid ≠ 1 then (-1, x) else (-5, x.powerOff flushed)

/-- What `schedule` does with the screen when a process ends. -/
def finish (x : Screen) : Screen :=
  if x.captured then { x with captured := false, active := true } else x

/-- The processes go on. -/
def settle (s' : System) (x : Screen) : Screen :=
  (Surfaces.ended x.sys s').foldl (fun x _ => x.finish) { x with sys := s' }

/-- What happens. -/
inductive Input
  | event (e : Event)
  | consoleRelease (writable : Bool)
  | powerOff (flushed writable : Bool)
  /-- A call that concerns neither processes nor the screen. -/
  | other (writable : Bool)

/-- The screen is taken. -/
def Input.takes : Input → Bool
  | .consoleRelease _ => true
  | _ => false

/-- The disk is flushed for a power-off. -/
def Input.powersOff : Input → Bool
  | .powerOff true _ => true
  | _ => false

/-- What a call does to the screen. -/
def calls (x : Screen) : Input → Screen
  | .event _ | .other _ => x
  | .consoleRelease _ => x.consoleRelease
  | .powerOff flushed _ => (x.callPowerOff flushed).2

section Next

variable (pbkdf2 : List UInt8 → List UInt8 → ℕ → Option (List UInt8))

/-- What becomes of the processes: after a call, the signals of its caller are delivered. -/
def processes (o : Input) (s : System) : System :=
  match o with
  | .event e => step pbkdf2 e s
  | .consoleRelease writable | .powerOff _ writable | .other writable =>
    deliverPendingSignal writable s

def next (o : Input) (x : Screen) : Screen := (x.calls o).settle (processes pbkdf2 o x.sys)

/-- The kernel has started `init`. -/
def boot : Screen := ⟨.boot, false, true, 0⟩

/-- The states that runs reach. -/
inductive Reaches : Screen → Prop
  | boot : Reaches boot
  | next {x : Screen} (h : Reaches x) (o : Input) (hrun : x.sys.halted = false) :
      Reaches (x.next pbkdf2 o)

/-- The process that was created as number `b` lives. -/
def Alive (b : ℕ) (x : Screen) : Prop :=
  ∃ i, x.sys.Live i ∧ (x.sys.processes i).history.birth = b

/-- The states that runs reach after process number `b` has taken the screen, when nobody else takes
it and every input is an allowed one in the state before it. -/
inductive Owned (allowed : Input → Screen → Prop) (b : ℕ) : Screen → Prop
  | call {x : Screen} (h : Reaches pbkdf2 x) (hrun : x.sys.halted = false)
      (hself : x.sys.self.history.birth = b) (writable : Bool) :
      Owned allowed b (x.next pbkdf2 (.consoleRelease writable))
  | next {x : Screen} (h : Owned allowed b x) (o : Input) (hrun : x.sys.halted = false)
      (hself : o.takes = true → x.sys.self.history.birth = b) (ha : allowed o x) :
      Owned allowed b (x.next pbkdf2 o)

/-- **The process owns the screen as long as it lives**, and no longer. -/
structure Held (b : ℕ) (x : Screen) : Prop where
  alive : x.Alive b → x.active = false ∧ x.captured = true
  ended : ¬ x.Alive b → x.active = true ∧ x.captured = false

/-- **The condition**: as long as the process lives, no other one ends, and `init` does not try to
turn the power off with the disk flushed. -/
def Spares (b : ℕ) (o : Input) (x : Screen) : Prop :=
  x.Alive b →
    (∀ i ∈ Surfaces.ended x.sys (processes pbkdf2 o x.sys), (x.sys.processes i).history.birth = b) ∧
      (o.powersOff = true → x.sys.self.pid ≠ 1)

end Next

end Screen

/-! ### One step -/

section Screen

variable {pbkdf2 : List UInt8 → List UInt8 → ℕ → Option (List UInt8)} {s' : System} {x : Screen}
  {b : ℕ} {o : Screen.Input}

theorem Screen.goes_processes {s : System} (hs : Sound s) (hrun : s.halted = false)
    (o : Screen.Input) : Goes s (Screen.processes pbkdf2 o s) := by
  cases o with
  | event e => exact goes_step hs hrun e
  | consoleRelease | powerOff | other => exact goes_deliver hs _

theorem Screen.sys_calls (x : Screen) (o : Screen.Input) : (x.calls o).sys = x.sys := by
  cases o with
  | event | consoleRelease | other => rfl
  | powerOff flushed w =>
    rw [Screen.calls, Screen.callPowerOff]
    split
    · rfl
    · rw [Screen.powerOff]
      split <;> rfl

theorem Screen.finish_sys (x : Screen) : x.finish.sys = x.sys := by
  rw [Screen.finish]
  split <;> rfl

theorem Screen.finishes {l : List (Fin maxProcesses)} (hl : l ≠ [])
    (hpair : x.active = !x.captured) :
    (l.foldl (fun x _ => x.finish) x).active = true ∧
      (l.foldl (fun x _ => x.finish) x).captured = false := by
  have hone : ∀ x : Screen, x.active = !x.captured →
      x.finish.active = true ∧ x.finish.captured = false := fun x hx => by
    rw [Screen.finish]
    split
    · exact ⟨rfl, rfl⟩
    · rename_i hcaptured
      rw [Bool.not_eq_true] at hcaptured
      rw [hx, hcaptured]
      exact ⟨rfl, rfl⟩
  induction l generalizing x with
  | nil => exact absurd rfl hl
  | cons i rest ih =>
    obtain ⟨hactive, hcaptured⟩ := hone x hpair
    cases rest with
    | nil => exact ⟨hactive, hcaptured⟩
    | cons j rest => exact ih (by simp) (by rw [hactive, hcaptured]; rfl)

theorem Screen.sys_finishes (l : List (Fin maxProcesses)) (x : Screen) :
    (l.foldl (fun x _ => x.finish) x).sys = x.sys := by
  induction l generalizing x with
  | nil => rfl
  | cons i rest ih => exact (ih x.finish).trans x.finish_sys

@[simp] theorem Screen.sys_settle (s' : System) (x : Screen) : (x.settle s').sys = s' :=
  Screen.sys_finishes _ _

theorem Screen.sys_next (o : Screen.Input) (x : Screen) :
    (x.next pbkdf2 o).sys = Screen.processes pbkdf2 o x.sys := by
  rw [Screen.next, Screen.sys_settle]

/-- The console draws if and only if it gets the input. -/
structure Screen.Sound (x : Screen) : Prop where
  sys : Exec.Sound x.sys
  pair : x.active = !x.captured

theorem Screen.pair_calls (h : x.active = !x.captured) (o : Screen.Input) :
    (x.calls o).active = !(x.calls o).captured := by
  cases o with
  | event | other => exact h
  | consoleRelease => rfl
  | powerOff flushed w =>
    rw [Screen.calls, Screen.callPowerOff]
    split
    · exact h
    · rw [Screen.powerOff]
      split
      · rfl
      · exact h

theorem Screen.Sound.next (h : x.Sound) (hrun : x.sys.halted = false) (o : Screen.Input) :
    (x.next pbkdf2 o).Sound := by
  refine ⟨?_, ?_⟩
  · rw [Screen.sys_next]
    exact (Screen.goes_processes h.sys hrun o).sound
  · have hpair := Screen.pair_calls h.pair o
    rw [Screen.next, Screen.settle]
    by_cases hl : Surfaces.ended (x.calls o).sys (Screen.processes pbkdf2 o x.sys) = []
    · rw [hl]
      exact hpair
    · obtain ⟨hactive, hcaptured⟩ := Screen.finishes (x := { x.calls o with
        sys := Screen.processes pbkdf2 o x.sys }) hl hpair
      rw [hactive, hcaptured]
      rfl

theorem Screen.Reaches.sound (h : Screen.Reaches pbkdf2 x) : x.Sound := by
  induction h with
  | boot => exact ⟨boot_sound, rfl⟩
  | next _ o hrun ih => exact ih.next hrun o

theorem Screen.Alive.before (hs : Exec.Sound x.sys) (hrun : x.sys.halted = false)
    (hb : b < x.sys.births) (h : (x.next pbkdf2 o).Alive b) : x.Alive b := by
  obtain ⟨i, hi, hbirth⟩ := h
  rw [Screen.sys_next] at hi hbirth
  rcases (Screen.goes_processes hs hrun o).origin i hi with ⟨hlive, -, hsame⟩ | ⟨-, hnew⟩
  · exact ⟨i, hlive, hsame.symm.trans hbirth⟩
  · omega

/-- **One input**: the screen is held, or given back. -/
theorem Screen.Held.next (h : x.Held b) (hs : x.Sound) (hrun : x.sys.halted = false)
    (hb : b < x.sys.births) (hself : o.takes = true → x.sys.self.history.birth = b)
    (hspares : Screen.Spares pbkdf2 b o x) : (x.next pbkdf2 o).Held b := by
  have hcurrent : x.sys.Live x.sys.current := ⟨(hs.sys.runs hrun).1, (hs.sys.runs hrun).2.1⟩
  refine ⟨fun halive => ?_, fun hended => ?_⟩
  · -- Nobody ends, for the process does not.
    have hbefore : x.Alive b := halive.before hs.sys hrun hb
    obtain ⟨hends, hpower⟩ := hspares hbefore
    have hnil : Surfaces.ended x.sys (Screen.processes pbkdf2 o x.sys) = [] := by
      refine List.eq_nil_iff_forall_not_mem.mpr fun i hi => ?_
      obtain ⟨j, hj, hbirth⟩ := halive
      rw [Screen.sys_next] at hj hbirth
      obtain ⟨hlive, hdead⟩ := mem_ended.mp hi
      rcases (Screen.goes_processes hs.sys hrun o).origin j hj with ⟨hlive', -, hsame⟩ | ⟨-, hnew⟩
      · have hij := hs.sys.identity.birth i j hlive.1 hlive'.1
          ((hends i hi).trans (hsame.symm.trans hbirth).symm)
        exact hdead (hij ▸ hj)
      · omega
    rw [Screen.next, Screen.settle, Screen.sys_calls, hnil]
    obtain ⟨hactive, hcaptured⟩ := h.alive hbefore
    cases o with
    | event | other => exact ⟨hactive, hcaptured⟩
    | consoleRelease => exact ⟨rfl, rfl⟩
    | powerOff flushed w =>
      simp only [List.foldl_nil, Screen.calls, Screen.callPowerOff]
      split
      · exact ⟨hactive, hcaptured⟩
      · rename_i hpid
        cases flushed with
        | true => exact absurd (hpower rfl) hpid
        | false => exact ⟨hactive, hcaptured⟩
  · by_cases hl : Surfaces.ended (x.calls o).sys (Screen.processes pbkdf2 o x.sys) = []
    · -- Nobody has ended, so the process did not live before.
      have hbefore : ¬ x.Alive b := fun ⟨i, hi, hbirth⟩ => by
        have hstays : (Screen.processes pbkdf2 o x.sys).Live i := by
          by_contra hdead
          rw [Screen.sys_calls] at hl
          exact absurd (mem_ended.mpr ⟨hi, hdead⟩) (hl ▸ List.not_mem_nil)
        refine hended ⟨i, by rwa [Screen.sys_next], ?_⟩
        rw [Screen.sys_next]
        rcases (Screen.goes_processes hs.sys hrun o).origin i hstays with ⟨-, -, hsame⟩ | ⟨hnot, -⟩
        · exact hsame.trans hbirth
        · exact absurd hi hnot
      obtain ⟨hactive, hcaptured⟩ := h.ended hbefore
      rw [Screen.next, Screen.settle, hl]
      cases o with
      | event | other => exact ⟨hactive, hcaptured⟩
      | consoleRelease => exact absurd ⟨_, hcurrent, hself rfl⟩ hbefore
      | powerOff flushed w =>
        simp only [List.foldl_nil, Screen.calls, Screen.callPowerOff]
        split
        · exact ⟨hactive, hcaptured⟩
        · rw [Screen.powerOff]
          split
          · exact ⟨rfl, rfl⟩
          · exact ⟨hactive, hcaptured⟩
    · exact Screen.finishes hl (Screen.pair_calls hs.pair o)

/-! ### Runs -/

theorem ended_deliver {s : System} {writable : Bool} {i : Fin maxProcesses}
    (h : i ∈ Surfaces.ended s (deliverPendingSignal writable s)) : i = s.current := by
  by_contra hi
  obtain ⟨hlive, hdead⟩ := mem_ended.mp h
  have hsame := deliverPendingSignal_other writable s hi
  exact hdead ⟨(congrArg Signals.active hsame).trans hlive.1,
    (congrArg Signals.zombie hsame).trans hlive.2⟩

/-- The call takes the screen. -/
theorem Screen.held_call (hs : x.Sound) (hrun : x.sys.halted = false)
    (hself : x.sys.self.history.birth = b) (writable : Bool) :
    (x.next pbkdf2 (.consoleRelease writable)).Held b := by
  have hcurrent : x.sys.Live x.sys.current := ⟨(hs.sys.runs hrun).1, (hs.sys.runs hrun).2.1⟩
  have hgoes : Goes x.sys (Screen.processes pbkdf2 (.consoleRelease writable) x.sys) :=
    Screen.goes_processes hs.sys hrun _
  have horigin := hgoes.origin
  by_cases hl : Surfaces.ended x.sys (deliverPendingSignal writable x.sys) = []
  · have hheld : (x.next pbkdf2 (.consoleRelease writable)).active = false ∧
        (x.next pbkdf2 (.consoleRelease writable)).captured = true := by
      rw [Screen.next, Screen.settle, Screen.sys_calls, Screen.processes, hl]
      exact ⟨rfl, rfl⟩
    refine ⟨fun _ => hheld, fun hended => absurd ?_ hended⟩
    have hlive : (deliverPendingSignal writable x.sys).Live x.sys.current := by
      by_contra hdead
      exact absurd (mem_ended.mpr ⟨hcurrent, hdead⟩) (hl ▸ List.not_mem_nil)
    refine ⟨x.sys.current, by rwa [Screen.sys_next], ?_⟩
    rw [Screen.sys_next]
    rcases horigin _ hlive with ⟨-, -, hsame⟩ | ⟨hnot, -⟩
    · exact hsame.trans hself
    · exact absurd hcurrent hnot
  · have hgiven : (x.next pbkdf2 (.consoleRelease writable)).active = true ∧
        (x.next pbkdf2 (.consoleRelease writable)).captured = false :=
      Screen.finishes hl rfl
    refine ⟨fun halive => ?_, fun _ => hgiven⟩
    -- A signal has ended the caller.
    obtain ⟨i, hi⟩ := List.exists_mem_of_ne_nil _ hl
    obtain ⟨j, hj, hbirth⟩ := halive
    rw [Screen.sys_next] at hj hbirth
    have hij : j = x.sys.current := by
      rcases horigin j hj with ⟨hlive, -, hsame⟩ | ⟨-, hnew⟩
      · exact hs.sys.identity.birth j x.sys.current hlive.1 hcurrent.1
          (hsame.symm.trans (hbirth.trans hself.symm))
      · have hlt : x.sys.self.history.birth < x.sys.births :=
          hs.sys.identity.birth_lt x.sys.current hcurrent.1
        exact absurd (hnew.trans_eq (hbirth.trans hself.symm)) (not_le.mpr hlt)
    rw [hij, ← ended_deliver hi] at hj
    exact absurd hj (mem_ended.mp hi).2

/-- **Whoever runs after the call has the screen.** -/
theorem Screen.Owned.held (h : Screen.Owned pbkdf2 (Screen.Spares pbkdf2 b) b x) :
    x.Sound ∧ b < x.sys.births ∧ x.Held b := by
  have hbirths : ∀ {x : Screen} (_ : x.Sound) (_ : x.sys.halted = false) (o : Screen.Input),
      x.sys.births ≤ (x.next pbkdf2 o).sys.births := fun hs hrun o => by
    rw [Screen.sys_next]
    exact (Screen.goes_processes hs.sys hrun o).births
  induction h with
  | @call x hreaches hrun hself writable =>
    have hs := hreaches.sound
    have hlt := hs.sys.identity.birth_lt x.sys.current (hs.sys.runs hrun).1
    have hself' : (x.sys.processes x.sys.current).history.birth = b := hself
    exact ⟨hs.next hrun _, (hself' ▸ hlt).trans_le (hbirths hs hrun _),
      Screen.held_call hs hrun hself writable⟩
  | next _ o hrun hself hspares ih =>
    obtain ⟨hs, hb, hheld⟩ := ih
    exact ⟨hs.next hrun o, hb.trans_le (hbirths hs hrun o), hheld.next hs hrun hb hself hspares⟩

/-- **Headline.** A process that takes the screen owns it as long as it lives, in every run in which
nobody else takes it, nobody else ends meanwhile, and `init` does not try to turn the power off. -/
theorem held_of_spares (h : Screen.Owned pbkdf2 (Screen.Spares pbkdf2 b) b x) : x.Held b :=
  h.held.2.2

end Screen

/-! ### Two runs -/

/-- The inputs of a list, one after another. -/
def Screen.run : List Screen.Input → Screen → Screen
  | [], x => x
  | o :: rest, x => run rest (x.next (fun _ _ _ => none) o)

/-- The process takes the screen again and again, if anyone does, and the inputs are allowed. -/
def Screen.mayRun (allowed : Screen.Input → Screen → Bool) (b : ℕ) :
    List Screen.Input → Screen → Bool
  | [], _ => true
  | o :: rest, x =>
    !x.sys.halted && (!o.takes || x.sys.self.history.birth == b) && allowed o x &&
      mayRun allowed b rest (x.next (fun _ _ _ => none) o)

theorem Screen.Owned.run {allowed : Screen.Input → Screen → Prop} [∀ o x, Decidable (allowed o x)]
    {b : ℕ} {x : Screen} (h : Screen.Owned (fun _ _ _ => none) allowed b x)
    {inputs : List Screen.Input}
    (hmay : Screen.mayRun (fun o x => decide (allowed o x)) b inputs x = true) :
    Screen.Owned (fun _ _ _ => none) allowed b (x.run inputs) := by
  induction inputs generalizing x with
  | nil => exact h
  | cons o rest ih =>
    simp only [Screen.mayRun, Bool.and_eq_true, Bool.not_eq_true', decide_eq_true_eq] at hmay
    obtain ⟨⟨⟨hrun, hself⟩, hallowed⟩, hrest⟩ := hmay
    refine ih (h.next o hrun (fun ho => ?_) hallowed) hrest
    simpa [ho] using hself

instance (b : ℕ) (x : Screen) : Decidable (x.Alive b) :=
  inferInstanceAs (Decidable (∃ i, x.sys.Live i ∧ (x.sys.processes i).history.birth = b))

instance (b : ℕ) (o : Screen.Input) (x : Screen) :
    Decidable (Screen.Spares (fun _ _ _ => none) b o x) :=
  inferInstanceAs (Decidable (x.Alive b →
    (∀ i ∈ Surfaces.ended x.sys (Screen.processes (fun _ _ _ => none) o x.sys),
      (x.sys.processes i).history.birth = b) ∧ (o.powersOff = true → x.sys.self.pid ≠ 1)))

/-- `init` takes the screen and forks. -/
theorem held_of_spares_sample :
    ((Screen.boot.next (fun _ _ _ => none) (.consoleRelease true)).run
      [.event (.call (.fork true) true), .event (.call .yield true), .other true]).Held 0 :=
  held_of_spares ((Screen.Owned.call .boot rfl rfl true).run (by decide +kernel))

/-- `init` takes the screen, and loses it when its child ends. -/
theorem screen_lost :
    let x := (Screen.boot.next (fun _ _ _ => none) (.consoleRelease true)).run
      [.event (.call (.fork true) true), .event (.call .yield true), .event (.call (.exit 0) true)]
    Screen.Owned (fun _ _ _ => none) (fun _ _ => True) 0 x ∧ x.Alive 0 ∧ x.active = true ∧
      x.captured = false ∧ ¬ x.Held 0 := by
  intro x
  have halive : x.Alive 0 := by decide +kernel
  have hactive : x.active = true := by decide +kernel
  refine ⟨(Screen.Owned.call .boot rfl rfl true).run (by decide +kernel), halive, hactive,
    by decide +kernel, fun h => ?_⟩
  exact absurd (hactive.symm.trans (h.alive halive).1) (by simp)

end ImagineOS.Display
