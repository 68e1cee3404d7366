import ImagineOS.BlockProgram.Endings

/-!
# The requests of a program

The other semantics are about devices that store what is written to them. A device here is a
machine with states of its own, which answers every request as it likes. `Prog.serve` runs a program
on it and keeps the sectors that the device was asked to write.
-/

namespace BlockProgram

variable {σ S E C R α β : Type}

/-! ### Devices -/

/-- A device: its answer to each request, and the state it is in then. -/
structure Device (σ S E : Type) where
  read : ℕ → σ → Except E S × σ
  write : ℕ → S → σ → Except E Unit × σ
  flush : σ → Except E Unit × σ

/-- What comes of a program: its value, the state of the device, and the writes that were asked
for, oldest first. -/
structure Served (σ S α : Type) where
  value : α
  state : σ
  writes : List (ℕ × S)

namespace Prog

/-- The run on a device. -/
def serve (dev : Device σ S E) : Prog S E Empty R α → σ → Served σ S α
  | pure a, s => ⟨a, s, []⟩
  | read lba k, s => (k (dev.read lba s).1).serve dev (dev.read lba s).2
  | write lba v k, s =>
    let served := (k (dev.write lba v s).1).serve dev (dev.write lba v s).2
    ⟨served.value, served.state, (lba, v) :: served.writes⟩
  | flush k, s => (k (dev.flush s).1).serve dev (dev.flush s).2
  | call c _, _ => c.elim

variable {dev : Device σ S E} {answer : R → Prop} {P : α → Prop} {Q : β → Prop}

theorem endsIn_of_forall (hP : ∀ a, P a) (p : Prog S E C R α) : p.EndsIn answer P := by
  induction p with
  | pure a => exact hP a
  | read lba k ih => exact fun r => ih r
  | write lba v k ih => exact fun r => ih r
  | flush k ih => exact fun r => ih r
  | call c k ih => exact fun r _ => ih r

variable {p : Prog S E Empty R α}

theorem EndsIn.of_answers {answer' : R → Prop} (h : p.EndsIn answer P) :
    p.EndsIn answer' P := by
  induction p with
  | pure a => exact h
  | read lba k ih => exact fun r => ih r (h r)
  | write lba v k ih => exact fun r => ih r (h r)
  | flush k ih => exact fun r => ih r (h r)
  | call c k => exact c.elim

theorem EndsIn.serve (h : p.EndsIn answer P) (s : σ) :
    P (p.serve dev s).value := by
  induction p generalizing s with
  | pure a => exact h
  | read lba k ih => exact ih _ (h _) _
  | write lba v k ih => exact ih _ (h _) _
  | flush k ih => exact ih _ (h _) _
  | call c k => exact c.elim

/-! ### Ends before the first write -/

/-- Whatever the device answers, no end in `P` comes after a write. -/
def RejectsFirst (P : α → Prop) : Prog S E Empty R α → Prop
  | pure _ => True
  | read _ k => ∀ r, (k r).RejectsFirst P
  | write _ _ k => ∀ r, (k r).EndsIn (fun _ => True) fun a => ¬ P a
  | flush k => ∀ r, (k r).RejectsFirst P
  | call c _ => c.elim

/-- **What `RejectsFirst` means**: a program that ended in `P` has asked for no write. -/
theorem RejectsFirst.serve (h : p.RejectsFirst P) {s : σ}
    (hP : P (p.serve dev s).value) : (p.serve dev s).writes = [] := by
  induction p generalizing s with
  | pure a => rfl
  | read lba k ih => exact ih _ (h _) hP
  | write lba v k ih => exact absurd hP ((h _).serve _)
  | flush k ih => exact ih _ (h _) hP
  | call c k => exact c.elim

/-- A program that never ends in `P`. -/
theorem EndsIn.rejectsFirst (h : p.EndsIn (fun _ => True) fun a => ¬ P a) : p.RejectsFirst P := by
  induction p with
  | pure a => exact trivial
  | read lba k ih => exact fun r => ih r (h r)
  | write lba v k ih => exact h
  | flush k ih => exact fun r => ih r (h r)
  | call c k => exact c.elim

theorem WritesIn.rejectsFirst (h : p.WritesIn fun _ => False) :
    p.RejectsFirst P := by
  induction p with
  | pure a => exact trivial
  | read lba k ih => exact fun r => ih r (h r)
  | write lba v k ih => exact h.1.elim
  | flush k ih => exact fun r => ih r (h r)
  | call c k => exact c.elim

/-- **A sequence rejects first** if its second part does after a value in `P`, which comes before
the first write, and never rejects after another one. -/
theorem RejectsFirst.bind {f : α → Prog S E Empty R β}
    (h : p.RejectsFirst P) (hbefore : ∀ a, P a → (f a).RejectsFirst Q)
    (hafter : ∀ a, ¬ P a → (f a).EndsIn (fun _ => True) fun b => ¬ Q b) :
    (p.bind f).RejectsFirst Q := by
  induction p with
  | pure a =>
    by_cases hP : P a
    · exact hbefore a hP
    · exact (hafter a hP).rejectsFirst
  | read lba k ih => exact fun r => ih r (h r)
  | write lba v k ih => exact fun r => (h r).bind hafter
  | flush k ih => exact fun r => ih r (h r)
  | call c k => exact c.elim

/-! ### Sectors that are read -/

/-- Whatever the device answers, every read of the program is of an allowed sector. -/
def ReadsIn (allowed : ℕ → Prop) : Prog S E Empty R α → Prop
  | pure _ => True
  | read lba k => allowed lba ∧ ∀ r, (k r).ReadsIn allowed
  | write _ _ k => ∀ r, (k r).ReadsIn allowed
  | flush k => ∀ r, (k r).ReadsIn allowed
  | call c _ => c.elim

variable {allowed : ℕ → Prop}

theorem ReadsIn.bind {f : α → Prog S E Empty R β}
    (h : p.ReadsIn allowed) (hf : ∀ a, (f a).ReadsIn allowed) : (p.bind f).ReadsIn allowed := by
  induction p with
  | pure a => exact hf a
  | read lba k ih => exact ⟨h.1, fun r => ih r (h.2 r)⟩
  | write lba v k ih => exact fun r => ih r (h r)
  | flush k ih => exact fun r => ih r (h r)
  | call c k => exact c.elim

/-! ### Programs that other programs run -/

variable {C' R' : Type}

/-- Each call is replaced by the program that answers it. -/
def inline (body : C → Prog S E C' R' R) : Prog S E C R α → Prog S E C' R' α
  | pure a => pure a
  | read lba k => read lba fun r => (k r).inline body
  | write lba v k => write lba v fun r => (k r).inline body
  | flush k => flush fun r => (k r).inline body
  | call c k => (body c).bind fun r => (k r).inline body

theorem bind_bind {γ : Type} (p : Prog S E C R α) (f : α → Prog S E C R β)
    (g : β → Prog S E C R γ) : (p.bind f).bind g = p.bind fun a => (f a).bind g := by
  induction p with
  | pure a => rfl
  | read lba k ih => exact congrArg (read lba) (funext ih)
  | write lba v k ih => exact congrArg (write lba v) (funext ih)
  | flush k ih => exact congrArg flush (funext ih)
  | call c k ih => exact congrArg (call c) (funext ih)

theorem inline_bind (body : C → Prog S E C' R' R) (p : Prog S E C R α) (f : α → Prog S E C R β) :
    (p.bind f).inline body = (p.inline body).bind fun a => (f a).inline body := by
  induction p with
  | pure a => rfl
  | read lba k ih => exact congrArg (read lba) (funext ih)
  | write lba v k ih => exact congrArg (write lba v) (funext ih)
  | flush k ih => exact congrArg flush (funext ih)
  | call c k ih =>
    rw [bind, inline, inline, bind_bind]
    exact congrArg (body c).bind (funext ih)

theorem run_inline (body : C → Prog S E C' R' R) (callee : C' → (ℕ → S) → R' × (ℕ → S))
    (p : Prog S E C R α) (d : ℕ → S) :
    (p.inline body).run callee d = p.run (fun c e => (body c).run callee e) d := by
  induction p generalizing d with
  | pure a => rfl
  | read lba k ih => exact ih _ d
  | write lba v k ih => exact ih _ _
  | flush k ih => exact ih _ d
  | call c k ih =>
    rw [inline, run_bind]
    exact ih _ _

theorem EndsIn.inline {answer' : R' → Prop} {body : Empty → Prog S E C' R' R}
    (h : p.EndsIn answer P) : (p.inline body).EndsIn answer' P := by
  induction p with
  | pure a => exact h
  | read lba k ih => exact fun r => ih r (h r)
  | write lba v k ih => exact fun r => ih r (h r)
  | flush k ih => exact fun r => ih r (h r)
  | call c k => exact c.elim

theorem WritesIn.inline {body : Empty → Prog S E C' R' R} (h : p.WritesIn allowed) :
    (p.inline body).WritesIn allowed := by
  induction p with
  | pure a => exact trivial
  | read lba k ih => exact fun r => ih r (h r)
  | write lba v k ih => exact ⟨h.1, fun r => ih r (h.2 r)⟩
  | flush k ih => exact fun r => ih r (h r)
  | call c k => exact c.elim

theorem ReadsIn.inline {body : Empty → Prog S E Empty R' R} (h : p.ReadsIn allowed) :
    (p.inline body).ReadsIn allowed := by
  induction p with
  | pure a => exact trivial
  | read lba k ih => exact ⟨h.1, fun r => ih r (h.2 r)⟩
  | write lba v k ih => exact fun r => ih r (h r)
  | flush k ih => exact fun r => ih r (h r)
  | call c k => exact c.elim

end Prog

namespace Fallible

variable {ε ε' C' : Type} {errors : ε' → Prop} {allowed : ℕ → Prop}

/-- A program inside another one: its calls are replaced by programs, and its errors are
wrapped. -/
def inside (wrap : ε → ε') (body : C → Prog S E C' (Except ε' Unit) (Except ε Unit))
    (m : Fallible S E C ε α) : Fallible S E C' ε' α :=
  ExceptT.mk ((m.run.inline body).bind fun r => .pure (r.mapError wrap))

/-- `.ok()`: a program without calls, whose error is dropped. -/
def attempt (m : Fallible S E Empty ε α) : Fallible S E C' ε' (Option α) :=
  ExceptT.mk ((m.run.inline fun c => c.elim).bind fun r => .pure (.ok r.toOption))

variable {wrap : ε → ε'}

theorem ends_inside (hwrap : ∀ e, errors (wrap e))
    (body : C → Prog S E C' (Except ε' Unit) (Except ε Unit)) (m : Fallible S E C ε α) :
    (inside wrap body m).Ends errors fun _ => True := by
  refine Prog.EndsIn.bind (Prog.endsIn_of_forall (P := fun _ => True) (fun _ => trivial) _) ?_
  intro r _
  cases r with
  | ok a => exact trivial
  | error e => exact hwrap e

section Inside

variable (wrap : ε → ε') (body : C → Prog S E C' (Except ε' Unit) (Except ε Unit))

theorem inside_readSector (wrapDevice : E → ε) (lba : ℕ) :
    inside wrap body (readSector wrapDevice lba) =
      (readSector (fun e => wrap (wrapDevice e)) lba : Fallible S E C' ε' S) := by
  refine congrArg ExceptT.mk (congrArg (Prog.read lba) (funext fun r => ?_))
  cases r with
  | ok s => rfl
  | error e => rfl

theorem inside_bind (m : Fallible S E C ε α) (f : α → Fallible S E C ε β) :
    inside wrap body (m >>= f) = inside wrap body m >>= fun a => inside wrap body (f a) := by
  change ExceptT.mk (((m.run.bind (andThen f)).inline body).bind _) =
    ExceptT.mk (((m.run.inline body).bind _).bind _)
  rw [Prog.inline_bind, Prog.bind_bind, Prog.bind_bind]
  refine congrArg ExceptT.mk (congrArg (m.run.inline body).bind (funext fun r => ?_))
  cases r with
  | ok a => rfl
  | error e => rfl

end Inside

variable {m : Fallible S E Empty ε α}

theorem Ends.inside {errors' : ε → Prop} (hwrap : ∀ e, errors' e → errors (wrap e))
    {body : Empty → Prog S E C' (Except ε' Unit) (Except ε Unit)} {P : α → Prop}
    (h : m.Ends errors' P) :
    (inside wrap body m).Ends errors P := by
  refine Prog.EndsIn.bind (Prog.EndsIn.inline h) fun r hr => ?_
  cases r with
  | ok a => exact hr
  | error e => exact hwrap e hr

theorem run_inside (wrap : ε → ε') (body : C → Prog S E C' (Except ε' Unit) (Except ε Unit))
    (m : Fallible S E C ε α) (callee : C' → (ℕ → S) → Except ε' Unit × (ℕ → S)) (d : ℕ → S) :
    (inside wrap body m).run.run callee d =
      ((m.run.run (fun c e => (body c).run callee e) d).1.mapError wrap,
        (m.run.run (fun c e => (body c).run callee e) d).2) := by
  change ((m.run.inline body).bind _).run callee d = _
  rw [Prog.run_bind, Prog.run_inline]
  rfl

theorem writesIn_attempt (h : m.run.WritesIn allowed) :
    (attempt m : Fallible S E C' ε' (Option α)).run.WritesIn allowed :=
  Prog.WritesIn.bind h.inline fun _ => trivial

variable {f : α → Fallible S E Empty ε β}

theorem readsIn_bind (h : m.run.ReadsIn allowed) (hf : ∀ a, (f a).run.ReadsIn allowed) :
    (m >>= f).run.ReadsIn allowed :=
  Prog.ReadsIn.bind (f := andThen f) h fun r => by
    cases r with
    | ok a => exact hf a
    | error e => exact trivial

theorem readsIn_inside {body : Empty → Prog S E Empty (Except ε' Unit) (Except ε Unit)}
    (h : m.run.ReadsIn allowed) : (inside wrap body m).run.ReadsIn allowed :=
  Prog.ReadsIn.bind h.inline fun _ => trivial

/-! ### Errors before the first write -/

/-- Whatever the device answers, no error in `errors` comes after a write. -/
def RejectsFirst (errors : ε → Prop) (m : Fallible S E Empty ε α) : Prop :=
  m.run.RejectsFirst (Ending errors fun _ => False)

variable {rejected : ε → Prop}

theorem Ends.endsIn (h : m.Ends (fun e => ¬ rejected e) fun _ => True) :
    m.run.EndsIn (fun _ => True) fun r => ¬ Ending rejected (fun _ => False) r := by
  refine (Prog.EndsIn.of_answers h).mono fun r hr => ?_
  cases r with
  | ok a => exact id
  | error e => exact hr

theorem Ends.rejectsFirst
    (h : m.Ends (fun e => ¬ rejected e) fun _ => True) : m.RejectsFirst rejected :=
  h.endsIn.rejectsFirst

/-- **Something that may be rejected comes first.** What follows it never ends in such an error. -/
theorem RejectsFirst.bind
    (h : m.RejectsFirst rejected) (hf : ∀ a, (f a).Ends (fun e => ¬ rejected e) fun _ => True) :
    (m >>= f).RejectsFirst rejected := by
  refine Prog.RejectsFirst.bind (f := andThen f) h (fun r hr => ?_) fun r hr => ?_
  · cases r with
    | ok a => exact hr.elim
    | error e => exact trivial
  · cases r with
    | ok a => exact (hf a).endsIn
    | error e => exact hr

/-- **Something that writes nothing comes first.** -/
theorem rejectsFirst_bind
    (h : m.run.WritesIn fun _ => False) (hf : ∀ a, (f a).RejectsFirst rejected) :
    (m >>= f).RejectsFirst rejected := by
  refine Prog.RejectsFirst.bind (f := andThen f) (P := fun _ => True) h.rejectsFirst
    (fun r _ => ?_) fun r hr => absurd trivial hr
  cases r with
  | ok a => exact hf a
  | error e => exact trivial

end Fallible

end BlockProgram
