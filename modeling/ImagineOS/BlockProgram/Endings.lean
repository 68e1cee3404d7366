import ImagineOS.BlockProgram.Program

/-!
# How a program can end

`Prog.run` follows a program on a device that never fails. A statement of the form *the program
never ends with this error* is about every answer that the device can give: data that are anything
at all, and an error at any request. `Prog.EndsIn` walks the whole tree. Calls are answered by other
programs, which come with statements of the same form, so the answers to calls are restricted.
-/

namespace BlockProgram

namespace Prog

variable {S E C R α β : Type} {answer : R → Prop} {P : α → Prop} {Q : β → Prop}

/-- Whatever the device answers, and whatever calls answer within `answer`, the program ends with a
value in `P`. -/
def EndsIn (answer : R → Prop) (P : α → Prop) : Prog S E C R α → Prop
  | pure a => P a
  | read _ k => ∀ r, (k r).EndsIn answer P
  | write _ _ k => ∀ r, (k r).EndsIn answer P
  | flush k => ∀ r, (k r).EndsIn answer P
  | call _ k => ∀ r, answer r → (k r).EndsIn answer P

theorem EndsIn.mono {P' : α → Prop} {p : Prog S E C R α} (h : p.EndsIn answer P)
    (hP : ∀ a, P a → P' a) : p.EndsIn answer P' := by
  induction p with
  | pure a => exact hP a h
  | read lba k ih => exact fun r => ih r (h r)
  | write lba s k ih => exact fun r => ih r (h r)
  | flush k ih => exact fun r => ih r (h r)
  | call c k ih => exact fun r hr => ih r (h r hr)

theorem EndsIn.bind {p : Prog S E C R α} {f : α → Prog S E C R β} (h : p.EndsIn answer P)
    (hf : ∀ a, P a → (f a).EndsIn answer Q) : (p.bind f).EndsIn answer Q := by
  induction p with
  | pure a => exact hf a h
  | read lba k ih => exact fun r => ih r (h r)
  | write lba s k ih => exact fun r => ih r (h r)
  | flush k ih => exact fun r => ih r (h r)
  | call c k ih => exact fun r hr => ih r (h r hr)

end Prog

namespace Fallible

variable {S E C ε α β : Type} {errors : ε → Prop} {P P' : α → Prop} {Q : β → Prop}

/-- A result within `P`, or an error within `errors`. -/
def Ending (errors : ε → Prop) (P : α → Prop) : Except ε α → Prop
  | .ok a => P a
  | .error e => errors e

/-- Whatever the device answers, and as long as calls fail only with `errors`, the program ends
with a value in `P` or with one of `errors`. -/
def Ends (errors : ε → Prop) (P : α → Prop) (m : Fallible S E C ε α) : Prop :=
  m.run.EndsIn (Ending errors fun _ => True) (Ending errors P)

theorem Ends.bind {m : Fallible S E C ε α} {f : α → Fallible S E C ε β} (h : m.Ends errors P)
    (hf : ∀ a, P a → (f a).Ends errors Q) : (m >>= f).Ends errors Q := by
  refine Prog.EndsIn.bind (f := andThen f) h fun r hr => ?_
  cases r with
  | ok a => exact hf a hr
  | error e => exact hr

theorem Ends.mono {m : Fallible S E C ε α} (h : m.Ends errors P) (hP : ∀ a, P a → P' a) :
    m.Ends errors P' := by
  refine Prog.EndsIn.mono h fun r hr => ?_
  cases r with
  | ok a => exact hP a hr
  | error e => exact hr

theorem ends_pure {a : α} (h : P a) : (Pure.pure a : Fallible S E C ε α).Ends errors P := h

theorem ends_throw {e : ε} (h : errors e) : (throw e : Fallible S E C ε α).Ends errors P := h

variable {wrap : E → ε}

theorem ends_readSector (hwrap : ∀ e, errors (wrap e)) (lba : ℕ) :
    (readSector wrap lba : Fallible S E C ε S).Ends errors fun _ => True := by
  intro r
  cases r with
  | ok s => exact trivial
  | error e => exact hwrap e

theorem ends_writeSector (hwrap : ∀ e, errors (wrap e)) (lba : ℕ) (s : S) :
    (writeSector wrap lba s : Fallible S E C ε Unit).Ends errors fun _ => True := by
  intro r
  cases r with
  | ok u => exact trivial
  | error e => exact hwrap e

theorem ends_flush (hwrap : ∀ e, errors (wrap e)) :
    (flush wrap : Fallible S E C ε Unit).Ends errors fun _ => True := by
  intro r
  cases r with
  | ok u => exact trivial
  | error e => exact hwrap e

theorem ends_call (c : C) : (call c : Fallible S E C ε Unit).Ends errors fun _ => True :=
  fun _ hr => hr

theorem ends_writeSectors (hwrap : ∀ e, errors (wrap e)) (ws : List (ℕ × S)) :
    (writeSectors wrap ws : Fallible S E C ε Unit).Ends errors fun _ => True := by
  induction ws with
  | nil => exact ends_pure trivial
  | cons w ws ih => exact (ends_writeSector hwrap w.1 w.2).bind fun _ _ => ih

end Fallible

end BlockProgram
