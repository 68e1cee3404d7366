import ImagineOS.Exec.Slots

/-!
# Processes: where handlers point

A handler is an address of the program that registers it. The kernel checks the address when it is
registered, and the handlers go with the process: a copy made by `fork` has those of its parent, and
`execve`, which replaces the program and its address space, keeps them as well. So they point into
the program that a process runs in every run in which no process with a handler replaces its
program, and no copy of an address space lacks the page of a handler (`points_of_keeps`); and a
process that does the former and goes on has a handler that points elsewhere
(`not_points_of_execve`).
-/

namespace ImagineOS.Exec

open Function Nat

/-! ### Programs -/

/-- A program that a process runs. Every program that is loaded gets a number of its own. -/
structure Program where
  image : ℕ
  /-- The addresses that are mapped. -/
  space : ℕ → Bool
  /-- The program that registered the handler of a signal. -/
  registered : Fin 32 → ℕ
  /-- The program that registered the restorer. -/
  restorerBy : ℕ

namespace Program

/-- A program is loaded. -/
def load (image : ℕ) (space : ℕ → Bool) : Program := ⟨image, space, fun _ => image, image⟩

/-- It registers a handler. -/
def registers (g : Program) (y : Fin 32) (handler : ℕ) : Program :=
  { g with
    registered := Function.update g.registered y g.image
    restorerBy := if signalIgnore < handler then g.image else g.restorerBy }

/-- **Every handler, and the restorer that is used with it, was registered by the program that runs,
and is mapped.** -/
def Points (g : Program) (p : Process) : Prop :=
  ∀ y, signalIgnore < p.signalActions y → g.registered y = g.image ∧ g.restorerBy = g.image ∧
    g.space (p.signalActions y) = true ∧ g.space p.signalRestorer = true

end Program

/-- The processes, and the programs that they run. -/
structure Programs where
  sys : System
  programs : Fin maxProcesses → Program
  /-- The number of the next program. -/
  images : ℕ

/-- What happens. -/
inductive Occurrence
  /-- An event, in which the loader or `clone_user` may make an address space. -/
  | event (e : Event) (space : ℕ → Bool)
  /-- More is mapped for the process that runs, by `sbrk` or for a surface, after which its signals
  are delivered. -/
  | maps (addresses : ℕ → Bool) (writable : Bool)

namespace Programs

/-- The program that runs. -/
def self (x : Programs) : Program := x.programs x.sys.current

/-- The program of a new process. -/
def born (x : Programs) (g : Program) : Fin maxProcesses → Program :=
  match x.sys.freeSlot with
  | some slot => Function.update x.programs slot g
  | none => x.programs

/-- The programs after a call. -/
def after (c : Call) (space : ℕ → Bool) (x : Programs) : Fin maxProcesses → Program :=
  match c with
  | .sigaction signal handler restorer mapped =>
    match validSignal signal with
    | some y =>
      if (setSignalAction signal handler restorer mapped x.sys).1 = 0 then
        Function.update x.programs x.sys.current (x.self.registers y handler)
      else x.programs
    | none => x.programs
  | .execve path loading =>
    if (execveCurrent path loading x.sys).1 = 0 then
      Function.update x.programs x.sys.current { x.self with image := x.images, space := space }
    else x.programs
  | .exec path loading =>
    if 0 < (spawnCurrent path loading x.sys).1 then x.born (.load x.images space) else x.programs
  | .spawn path loading io =>
    if 0 < (spawnCurrentWithIo path loading io x.sys).1 then x.born (.load x.images space)
    else x.programs
  | .fork cloned =>
    if 0 < (forkCurrent cloned x.sys).1 then x.born { x.self with space := space } else x.programs
  | _ => x.programs

/-- What may happen: the kernel checks what a process registers, and a copy of an address space maps
nothing else. -/
def Allows (x : Programs) : Occurrence → Prop
  | .event (.call (.sigaction _ handler restorer mapped) _) _ =>
    mapped = (x.self.space handler && x.self.space restorer)
  | .event (.call (.fork _) _) space => ∀ a, space a = true → x.self.space a = true
  | _ => True

/-- **The condition**: no process with a handler replaces its program, and a copy of an address
space has the handlers and the restorer that is used with them. -/
def Keeps (x : Programs) : Occurrence → Prop
  | .event (.call (.execve path loading) _) _ => (execveCurrent path loading x.sys).1 = 0 →
    ∀ y, x.sys.self.signalActions y ≤ signalIgnore
  | .event (.call (.fork cloned) _) space => 0 < (forkCurrent cloned x.sys).1 →
    ∀ y, signalIgnore < x.sys.self.signalActions y →
      space (x.sys.self.signalActions y) = true ∧ space x.sys.self.signalRestorer = true
  | _ => True

section Next

variable (pbkdf2 : List UInt8 → List UInt8 → ℕ → Option (List UInt8))

def next (o : Occurrence) (x : Programs) : Programs :=
  match o with
  | .event e space =>
    { sys := step pbkdf2 e x.sys
      programs := match e with
        | .call c _ => x.after c space
        | _ => x.programs
      images := x.images + 1 }
  | .maps addresses writable =>
    { x with
      sys := deliverPendingSignal writable x.sys
      programs := Function.update x.programs x.sys.current
        { x.self with space := fun a => x.self.space a || addresses a } }

/-- `init` was loaded. -/
def boot (space : ℕ → Bool) : Programs := ⟨.boot, fun _ => .load 0 space, 1⟩

/-- The states that runs reach, when every occurrence satisfies a condition in the state before it.
-/
inductive Reaches (allowed : Programs → Occurrence → Prop) : Programs → Prop
  | boot (space : ℕ → Bool) : Reaches allowed (boot space)
  | next {x : Programs} (h : Reaches allowed x) (o : Occurrence) (hrun : x.sys.halted = false)
      (hallows : x.Allows o) (hallowed : allowed x o) : Reaches allowed (x.next pbkdf2 o)

end Next

/-- All handlers of live processes point into the programs that run. -/
def Points (x : Programs) : Prop := ∀ i, x.sys.Live i → (x.programs i).Points (x.sys.processes i)

end Programs

/-! ### One occurrence -/

/-- A process and its program: programs have numbers below the next one, and handlers point into the
program. -/
structure Program.Fits (g : Program) (images : ℕ) (p : Process) : Prop where
  image : g.image < images
  registered : ∀ y, g.registered y < images
  points : g.Points p

/-- **The invariant of runs.** -/
def Fitting (x : Programs) : Prop :=
  ∀ i, (x.sys.processes i).active = true → (x.programs i).Fits x.images (x.sys.processes i)

/-- A call that neither registers handlers nor makes programs. -/
def Call.leavesHandlers : Call → Bool
  | .sigaction .. | .execve .. | .exec .. | .spawn .. | .fork _ => false
  | _ => true

section Handlers

variable {pbkdf2 : List UInt8 → List UInt8 → ℕ → Option (List UInt8)} {x : Programs}
  {i : Fin maxProcesses} {g : Program} {p q : Process} {n : ℕ}

theorem handlers_of_rest (h : p.rest = q.rest) :
    p.active = q.active ∧ p.signalActions = q.signalActions ∧
      p.signalRestorer = q.signalRestorer := by
  have hactive : p.rest.active = q.rest.active := by rw [h]
  have hactions : p.rest.signalActions = q.rest.signalActions := by rw [h]
  have hrestorer : p.rest.signalRestorer = q.rest.signalRestorer := by rw [h]
  exact ⟨hactive, hactions, hrestorer⟩

theorem Program.Fits.congr (h : g.Fits n p) (hactions : q.signalActions = p.signalActions)
    (hrestorer : q.signalRestorer = p.signalRestorer) : g.Fits n q := by
  refine ⟨h.image, h.registered, fun y hy => ?_⟩
  rw [hactions] at hy ⊢
  rw [hrestorer]
  exact h.points y hy

theorem Program.Fits.of_rest (h : g.Fits n p) (hrest : q.rest = p.rest) : g.Fits n q :=
  have hsame := handlers_of_rest hrest
  h.congr hsame.2.1 hsame.2.2

theorem Program.Fits.succ (h : g.Fits n p) : g.Fits (n + 1) p :=
  ⟨h.image.trans (lt_succ_self _), fun y => (h.registered y).trans (lt_succ_self _),
    h.points⟩

theorem Program.Points.of_none (h : ∀ y, p.signalActions y ≤ signalIgnore) : g.Points p :=
  fun y hy => absurd hy (h y).not_gt

variable {space : ℕ → Bool}

theorem Program.Fits.load (h : ∀ y, p.signalActions y ≤ signalIgnore) :
    (Program.load n space).Fits (n + 1) p :=
  ⟨lt_succ_self _, fun _ => lt_succ_self _, .of_none h⟩

/-- What was checked may be registered. -/
theorem Program.Fits.registers (h : g.Fits n p) {y : Fin 32} {handler restorer : ℕ} {mapped : Bool}
    (hmapped : mapped = (g.space handler && g.space restorer))
    (hvalid : handler ≤ signalIgnore ∨ restorer ≠ 0 ∧ mapped = true)
    (hactions : q.signalActions = Function.update p.signalActions y handler)
    (hrestorer : q.signalRestorer =
      if signalIgnore < handler then restorer else p.signalRestorer) :
    (g.registers y handler).Fits (n + 1) q := by
  refine ⟨h.image.trans (lt_succ_self _), fun z => ?_, fun z hz => ?_⟩
  · simp only [Program.registers, update_apply]
    split
    · exact h.image.trans (lt_succ_self _)
    · exact (h.registered z).trans (lt_succ_self _)
  rw [hactions] at hz ⊢
  rw [hrestorer]
  -- The new handler was checked together with the restorer, and the others are used with it now.
  have hspace : signalIgnore < handler → g.space handler = true ∧ g.space restorer = true :=
    fun hlt => by
      rw [hvalid.resolve_left hlt.not_ge |>.2] at hmapped
      simpa using hmapped.symm
  by_cases hzy : z = y
  · subst hzy
    rw [update_self] at hz ⊢
    simp [Program.registers, hz, hspace hz]
  · rw [update_of_ne hzy] at hz ⊢
    obtain ⟨hregistered, hby, haction, hold⟩ := h.points z hz
    refine ⟨(update_of_ne hzy _ _).trans hregistered, ?_, haction, ?_⟩
    · simp [Program.registers, hby]
    · split
      · rename_i hlt
        exact (hspace hlt).2
      · exact hold

variable {c : Call} {w : Bool}

theorem Change.handlers {s : System} (h : Change (.call c w) s i p)
    (hc : c.leavesHandlers = true) (hself : s.self.active = true) (hp : p.active = true) :
    (s.processes i).active = true ∧ p.signalActions = (s.processes i).signalActions ∧
      p.signalRestorer = (s.processes i).signalRestorer := by
  cases h with
  | kept => exact ⟨hp, rfl, rfl⟩
  | exited _ hi | identified hi =>
    subst hi
    exact ⟨hself, rfl, rfl⟩
  | handles he | replaced he | forked he =>
    cases he
    cases hc
  | spawned he =>
    rcases he with he | ⟨_, he⟩ <;> cases he <;> cases hc
  | collected => cases hp

theorem after_of_leaves (hc : c.leavesHandlers = true) (space : ℕ → Bool) :
    x.after c space = x.programs := by
  cases c <;> first | rfl | cases hc

theorem Fitting.born (h : Fitting x) (hg : g.Fits (x.images + 1) q) {slot : Fin maxProcesses}
    (hslot : x.sys.freeSlot = some slot) (hp : p.active = true)
    (hrest : p.rest = if i = slot then q.rest else (x.sys.processes i).rest) :
    (x.born g i).Fits (x.images + 1) p := by
  rw [Programs.born, hslot]
  by_cases hi : i = slot
  · rw [if_pos hi] at hrest
    simp only [hi, update_self]
    exact hg.of_rest hrest
  · rw [if_neg hi] at hrest
    simp only [update_of_ne hi]
    exact (h i ((handlers_of_rest hrest).1.symm.trans hp)).succ.of_rest hrest

theorem Fitting.setSelf (h : Fitting x) (hg : g.Fits (x.images + 1) q) (hp : p.active = true)
    (hrest : p.rest = ((x.sys.setSelf q).processes i).rest) :
    (Function.update x.programs x.sys.current g i).Fits (x.images + 1) p := by
  rw [rest_setSelf] at hrest
  by_cases hi : i = x.sys.current
  · rw [if_pos hi] at hrest
    rw [hi, update_self]
    exact hg.of_rest hrest
  · rw [if_neg hi] at hrest
    rw [update_of_ne hi]
    exact (h i ((handlers_of_rest hrest).1.symm.trans hp)).succ.of_rest hrest

theorem Fitting.kept (h : Fitting x) (hp : p.active = true)
    (hrest : p.rest = (x.sys.processes i).rest) : (x.programs i).Fits (x.images + 1) p :=
  (h i ((handlers_of_rest hrest).1.symm.trans hp)).succ.of_rest hrest

/-- **What a call does** to the handlers and the programs. -/
theorem Fitting.after (h : Fitting x) (hself : x.sys.self.active = true)
    (hallows : x.Allows (.event (.call c w) space))
    (hkeeps : x.Keeps (.event (.call c w) space)) (hp : p.active = true)
    (hrest : p.rest = ((dispatch pbkdf2 c x.sys).processes i).rest) :
    (x.after c space i).Fits (x.images + 1) p := by
  have hfits : x.self.Fits x.images x.sys.self := h x.sys.current hself
  cases hc : c.leavesHandlers with
  | true =>
    rw [after_of_leaves hc]
    have hchange : Change (.call c w) x.sys i ((dispatch pbkdf2 c x.sys).processes i).rest :=
      dispatch_change c w x.sys i
    rw [← hrest] at hchange
    obtain ⟨hi, hactions, hrestorer⟩ := hchange.handlers hc hself hp
    exact (h i hi).succ.congr hactions hrestorer
  | false =>
    cases c with
    | sigaction signal handler restorer mapped =>
      rw [dispatch] at hrest
      rcases setSignalAction_registers signal handler restorer mapped x.sys with
        ⟨hfailed, heq⟩ | ⟨y, hy, hdone, hvalid, heq⟩ <;> rw [heq] at hrest
      · have hsame : x.after (.sigaction signal handler restorer mapped) space = x.programs := by
          simp only [Programs.after, if_neg hfailed]
          split <;> rfl
        rw [hsame]
        exact h.kept hp hrest
      · simp only [Programs.after, hy, hdone, if_true]
        exact h.setSelf (hfits.registers hallows hvalid rfl rfl) hp hrest
    | execve path loading =>
      rw [dispatch] at hrest
      cases loading with
      | denied | missing | refused => exact h.kept hp hrest
      | loaded =>
        have hdone : (execveCurrent path .loaded x.sys).1 = 0 := rfl
        rw [Programs.after, if_pos hdone]
        refine h.setSelf (q := x.sys.replaced path) ⟨lt_succ_self _, fun y => ?_,
          .of_none (hkeeps hdone)⟩ hp hrest
        exact (hfits.registered y).trans (lt_succ_self _)
    | exec path loading =>
      rw [dispatch] at hrest
      rw [Programs.after]
      rcases spawnCurrentWithIo_rest path loading _ x.sys with
        ⟨hfailed, heq⟩ | ⟨slot, hslot, -, hpid, hprocesses⟩
      · rw [spawnCurrent, if_neg hfailed.not_gt]
        rw [spawnCurrent, heq] at hrest
        exact h.kept hp hrest
      · rw [spawnCurrent, hpid, if_pos (by simp [System.nextPid])]
        rw [spawnCurrent, hprocesses] at hrest
        exact h.born (.load fun _ => zero_le _) hslot hp hrest
    | spawn path loading io =>
      rw [dispatch] at hrest
      rw [Programs.after]
      rcases spawnCurrentWithIo_rest path loading io x.sys with
        ⟨hfailed, heq⟩ | ⟨slot, hslot, -, hpid, hprocesses⟩
      · rw [if_neg hfailed.not_gt]
        rw [heq] at hrest
        exact h.kept hp hrest
      · rw [hpid, if_pos (by simp [System.nextPid])]
        rw [hprocesses] at hrest
        exact h.born (.load fun _ => zero_le _) hslot hp hrest
    | fork cloned =>
      rw [dispatch] at hrest
      rw [Programs.after]
      rcases forkCurrent_copied cloned x.sys with
        ⟨hfailed, heq⟩ | ⟨slot, hslot, -, hpid, hprocesses⟩
      · rw [if_neg hfailed.not_gt]
        rw [heq] at hrest
        exact h.kept hp hrest
      · have hpos : 0 < (forkCurrent cloned x.sys).1 := by simp [hpid, System.nextPid]
        rw [if_pos hpos]
        rw [hprocesses] at hrest
        refine h.born (q := x.sys.copied) ?_ hslot hp (hrest.trans (apply_ite _ _ _ _))
        refine ⟨hfits.image.trans (lt_succ_self _), fun y =>
          (hfits.registered y).trans (lt_succ_self _), fun y hy => ?_⟩
        obtain ⟨hregistered, hby, -⟩ := hfits.points y hy
        exact ⟨hregistered, hby, hkeeps hpos y hy⟩
    | _ => cases hc

/-- **One occurrence** that satisfies the condition keeps the handlers where they point. -/
theorem Fitting.next (h : Fitting x) (hs : Sound x.sys) (hrun : x.sys.halted = false)
    {o : Occurrence} (hallows : x.Allows o) (hkeeps : x.Keeps o) : Fitting (x.next pbkdf2 o) := by
  intro i hi
  cases o with
  | maps addresses w =>
    have hrest := rest_deliverPendingSignal w x.sys i
    have hi' : (x.sys.processes i).active = true := (handlers_of_rest hrest).1.symm.trans hi
    have hfits := (h i hi').of_rest hrest
    by_cases hcurrent : i = x.sys.current
    · subst hcurrent
      simp only [Programs.next, update_self]
      refine ⟨hfits.image, hfits.registered, fun y hy => ?_⟩
      obtain ⟨hregistered, hby, haction, hrestorer⟩ := hfits.points y hy
      exact ⟨hregistered, hby, Bool.or_eq_true_iff.mpr (Or.inl haction),
        Bool.or_eq_true_iff.mpr (Or.inl hrestorer)⟩
    · simp only [Programs.next, update_of_ne hcurrent]
      exact hfits
  | event e space =>
    cases e with
    | tick user => exact h.kept hi (rest_timerTick user x.sys i)
    | fault => exact h.kept hi (rest_schedule true x.sys i)
    | call c w =>
      exact h.after (hs.runs hrun).1 hallows hkeeps hi (rest_step_call pbkdf2 c w x.sys i)

theorem Fitting.boot (space : ℕ → Bool) : Fitting (.boot space) := by
  intro i _
  refine .load fun y => ?_
  by_cases hi : i = 0 <;> simp [Programs.boot, System.boot, hi, loadElf, Process.empty,
    signalDefault, signalIgnore]

theorem Programs.Reaches.sound {allowed : Programs → Occurrence → Prop}
    (h : Programs.Reaches pbkdf2 allowed x) : Sound x.sys := by
  induction h with
  | boot => exact boot_sound
  | next _ o hrun _ _ ih =>
    cases o with
    | event e space => exact ih.step hrun e
    | maps addresses w => exact (deliverPendingSignal_spec w _).sound ih

theorem Programs.Reaches.fitting (h : Programs.Reaches pbkdf2 Programs.Keeps x) : Fitting x := by
  induction h with
  | boot space => exact .boot space
  | next h o hrun hallows hkeeps ih => exact ih.next h.sound hrun hallows hkeeps

/-- **Headline.** In every run in which no process with a handler replaces its program, and no copy
of an address space lacks what a handler needs, all handlers of live processes point into the
programs that run. -/
theorem points_of_keeps (h : Programs.Reaches pbkdf2 Programs.Keeps x) : x.Points :=
  fun i hi => (h.fitting i hi.1).points

theorem not_points_of_execve (h : Programs.Reaches pbkdf2 Programs.Keeps x)
    (hrun : x.sys.halted = false) {path : String} {y : Fin 32}
    (hy : signalIgnore < x.sys.self.signalActions y)
    (hlive : (x.next pbkdf2 (.event (.call (.execve path .loaded) w) space)).sys.Live
      x.sys.current) :
    ¬ (x.next pbkdf2 (.event (.call (.execve path .loaded) w) space)).Points := by
  intro hpoints
  have hfits : x.self.Fits x.images x.sys.self :=
    h.fitting x.sys.current (h.sound.runs hrun).1
  have hrest : ((step pbkdf2 (.call (.execve path .loaded) w) x.sys).processes
      x.sys.current).rest = (x.sys.replaced path).rest :=
    (rest_step_call pbkdf2 (.execve path .loaded) w x.sys x.sys.current).trans
      ((rest_setSelf _ _ _).trans (if_pos rfl))
  have hprogram : (x.next pbkdf2 (.event (.call (.execve path .loaded) w) space)).programs
      x.sys.current = { x.self with image := x.images, space := space } :=
    update_self _ _ _
  have hactions := (handlers_of_rest hrest).2.1
  have hregistered := (hpoints x.sys.current hlive y (by
    rw [Programs.next, hactions]
    exact hy)).1
  rw [hprogram] at hregistered
  exact absurd hregistered (hfits.registered y).ne

end Handlers

/-! ### Two runs -/

/-- `init` has registered a handler for the signal 15. -/
def registered : Programs :=
  (Programs.boot fun _ => true).next (fun _ _ _ => none)
    (.event (.call (.sigaction 15 0x401000 0x402000 true) true) fun _ => true)

theorem reaches_registered (allowed : Programs → Occurrence → Prop)
    (h : allowed (.boot fun _ => true)
      (.event (.call (.sigaction 15 0x401000 0x402000 true) true) fun _ => true)) :
    Programs.Reaches (fun _ _ _ => none) allowed registered :=
  (Programs.Reaches.boot fun _ => true).next _ rfl rfl h

/-- After `fork`, the handlers of both processes point into the program. -/
theorem points_of_keeps_sample :
    (registered.next (fun _ _ _ => none) (.event (.call (.fork true) true) fun _ => true)).Points ∧
      (registered.next (fun _ _ _ => none)
        (.event (.call (.fork true) true) fun _ => true)).sys.Live 1 := by
  refine ⟨points_of_keeps
    ((reaches_registered _ trivial).next _ (by decide +kernel) (fun _ _ => ?_) ?_),
    by decide +kernel⟩
  · have hcurrent : registered.sys.current = 0 := by decide +kernel
    rw [Programs.self, hcurrent]
    rfl
  · exact fun _ _ _ => ⟨rfl, rfl⟩

/-- After `execve`, the handler is an address of the program before. -/
theorem handler_kept :
    Programs.Reaches (fun _ _ _ => none) (fun _ _ => True)
      (registered.next (fun _ _ _ => none)
        (.event (.call (.execve "/bin/ls" .loaded) true) fun _ => true)) ∧
      ¬ (registered.next (fun _ _ _ => none)
        (.event (.call (.execve "/bin/ls" .loaded) true) fun _ => true)).Points := by
  refine ⟨(reaches_registered _ trivial).next _ (by decide +kernel) trivial trivial, fun h => ?_⟩
  have hpoints := (h 0 (by decide +kernel) 15 (by decide +kernel)).1
  exact absurd hpoints (by decide +kernel)

end ImagineOS.Exec
