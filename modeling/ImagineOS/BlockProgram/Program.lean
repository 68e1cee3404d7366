import Mathlib.Logic.Function.Basic
import Mathlib.Data.Nat.Notation

/-!
# Programs over a block device

A program that talks to a block device is a tree of device requests. Every request carries the
continuation for each answer the device can give, including a device error, so one definition of
an algorithm serves several semantics: the run on a device that never fails (`Prog.run`, below),
and the runs on a device with a volatile write cache that may fail or lose power at any request
(`BlockProgram.Cache`).
-/

namespace BlockProgram

/-- A program over a block device: sectors are of type `S`, device errors of type `E`, and a call
`c : C` is answered by some `r : R`. -/
inductive Prog (S E C R α : Type) : Type where
  /-- The program is finished. -/
  | pure (a : α)
  /-- Read one sector. -/
  | read (lba : ℕ) (k : Except E S → Prog S E C R α)
  /-- Write one sector. -/
  | write (lba : ℕ) (s : S) (k : Except E Unit → Prog S E C R α)
  /-- Make every earlier write durable. -/
  | flush (k : Except E Unit → Prog S E C R α)
  /-- Hand over to another program. -/
  | call (c : C) (k : R → Prog S E C R α)

namespace Prog

variable {S E C R α β : Type}

def bind : Prog S E C R α → (α → Prog S E C R β) → Prog S E C R β
  | pure a, f => f a
  | read lba k, f => read lba fun r => (k r).bind f
  | write lba s k, f => write lba s fun r => (k r).bind f
  | flush k, f => flush fun r => (k r).bind f
  | call c k, f => call c fun r => (k r).bind f

instance : Monad (Prog S E C R) where
  pure := Prog.pure
  bind := Prog.bind

/-- The run on a device that never fails: a read returns the last write, a flush does nothing
visible, and a call does what `callee` says. -/
def run (callee : C → (ℕ → S) → R × (ℕ → S)) : Prog S E C R α → (ℕ → S) → α × (ℕ → S)
  | pure a, d => (a, d)
  | read lba k, d => (k (.ok (d lba))).run callee d
  | write lba s k, d => (k (.ok ())).run callee (Function.update d lba s)
  | flush k, d => (k (.ok ())).run callee d
  | call c k, d => (k (callee c d).1).run callee (callee c d).2

theorem run_bind (callee : C → (ℕ → S) → R × (ℕ → S)) (p : Prog S E C R α)
    (f : α → Prog S E C R β) (d : ℕ → S) :
    (p.bind f).run callee d = (f (p.run callee d).1).run callee (p.run callee d).2 := by
  induction p generalizing d with
  | pure a => rfl
  | read lba k ih => exact ih _ d
  | write lba s k ih => exact ih _ _
  | flush k ih => exact ih _ d
  | call c k ih => exact ih _ _

/-- The program only reads, and ends with `b` on the disk `d`. -/
def Reads : Prog S E C R α → (ℕ → S) → α → Prop
  | pure a, _, b => a = b
  | read lba k, d, b => (k (.ok (d lba))).Reads d b
  | _, _, _ => False

variable {p : Prog S E C R α}

theorem Reads.bind {f : α → Prog S E C R β} {d : ℕ → S} {a : α} {b : β}
    (h : p.Reads d a) (h' : (f a).Reads d b) : (p.bind f).Reads d b := by
  induction p with
  | pure a' => exact h ▸ h'
  | read lba k ih => exact ih _ h
  | _ => exact h.elim

theorem Reads.run (callee : C → (ℕ → S) → R × (ℕ → S)) {d : ℕ → S} {a : α}
    (h : p.Reads d a) : p.run callee d = (a, d) := by
  induction p with
  | pure a' => exact congrArg (·, d) h
  | read lba k ih => exact ih _ h
  | _ => exact h.elim

/-- Whatever the device answers, every write of the program is to an allowed sector. -/
def WritesIn (allowed : ℕ → Prop) : Prog S E C R α → Prop
  | pure _ => True
  | read _ k => ∀ r, (k r).WritesIn allowed
  | write lba _ k => allowed lba ∧ ∀ r, (k r).WritesIn allowed
  | flush k => ∀ r, (k r).WritesIn allowed
  | call _ k => ∀ r, (k r).WritesIn allowed

theorem WritesIn.bind {allowed : ℕ → Prop} {f : α → Prog S E C R β}
    (h : p.WritesIn allowed) (hf : ∀ a, (f a).WritesIn allowed) : (p.bind f).WritesIn allowed := by
  induction p with
  | pure a => exact hf a
  | read lba k ih => exact fun r => ih r (h r)
  | write lba s k ih => exact ⟨h.1, fun r => ih r (h.2 r)⟩
  | flush k ih => exact fun r => ih r (h r)
  | call c k ih => exact fun r => ih r (h r)

end Prog

/-! ### Programs that may end in an error -/

/-- A program that ends in a value or in an error `ε`. Its calls are answered by success or by an
error of the same kind. -/
abbrev Fallible (S E C ε α : Type) : Type := ExceptT ε (Prog S E C (Except ε Unit)) α

namespace Fallible

variable {S E C ε α β : Type}

/-- The underlying program of a sequence: an error skips what follows. -/
def andThen (f : α → Fallible S E C ε β) :
    Except ε α → Prog S E C (Except ε Unit) (Except ε β)
  | .ok a => (f a).run
  | .error e => .pure (.error e)

theorem run_bind (m : Fallible S E C ε α) (f : α → Fallible S E C ε β) :
    (m >>= f).run = m.run.bind (andThen f) := rfl

@[simp] theorem andThen_ok (f : α → Fallible S E C ε β) (a : α) :
    andThen f (.ok a) = (f a).run := rfl

@[simp] theorem andThen_error (f : α → Fallible S E C ε β) (e : ε) :
    andThen f (.error e) = .pure (.error e) := rfl

variable {f : α → Fallible S E C ε β} {d : ℕ → S} {m : Fallible S E C ε α}

theorem run_bind_eq {callee : C → (ℕ → S) → Except ε Unit × (ℕ → S)} {e : ℕ → S} {r : Except ε α}
    (h : m.run.run callee d = (r, e)) :
    (m >>= f).run.run callee d = (andThen f r).run callee e := by
  rw [run_bind, Prog.run_bind, h]

/-- Read one sector, turning a device error into an error of the program. -/
def readSector (wrap : E → ε) (lba : ℕ) : Fallible S E C ε S :=
  ExceptT.mk (.read lba fun r => .pure (r.mapError wrap))

theorem reads_readSector (wrap : E → ε) (lba : ℕ) (d : ℕ → S) :
    (readSector wrap lba : Fallible S E C ε S).run.Reads d (.ok (d lba)) := rfl

/-- Write one sector, turning a device error into an error of the program. -/
def writeSector (wrap : E → ε) (lba : ℕ) (s : S) : Fallible S E C ε Unit :=
  ExceptT.mk (.write lba s fun r => .pure (r.mapError wrap))

/-- Flush the device, turning a device error into an error of the program. -/
def flush (wrap : E → ε) : Fallible S E C ε Unit :=
  ExceptT.mk (.flush fun r => .pure (r.mapError wrap))

/-- Make a call; its answer is the answer of the program. -/
def call (c : C) : Fallible S E C ε Unit := ExceptT.mk (.call c .pure)

/-- Run a program and report whether it succeeded with a value satisfying `p`; its error, if any,
is dropped. -/
def isOkAnd (m : Fallible S E C ε α) (p : α → Bool) : Fallible S E C ε Bool :=
  ExceptT.mk (m.run.bind fun
    | .ok a => .pure (.ok (p a))
    | .error _ => .pure (.ok false))

theorem reads_bind {a : α} {r : Except ε β} (h : m.run.Reads d (.ok a)) (h' : (f a).run.Reads d r) :
    (m >>= f).run.Reads d r := Prog.Reads.bind (f := andThen f) h h'

theorem reads_isOkAnd {p : α → Bool} {a : α}
    (h : m.run.Reads d (.ok a)) : (isOkAnd m p).run.Reads d (.ok (p a)) := Prog.Reads.bind h rfl

/-- The writes of a list, one sector after the other. -/
def writeSectors (wrap : E → ε) : List (ℕ × S) → Fallible S E C ε Unit
  | [] => Pure.pure ()
  | w :: ws => do
    writeSector wrap w.1 w.2
    writeSectors wrap ws

variable {allowed : ℕ → Prop}

theorem writesIn_bind (h : m.run.WritesIn allowed) (hf : ∀ a, (f a).run.WritesIn allowed) :
    (m >>= f).run.WritesIn allowed :=
  Prog.WritesIn.bind (f := andThen f) h fun r => by
    cases r with
    | ok a => exact hf a
    | error e => exact trivial

theorem writesIn_writeSector {wrap : E → ε} {lba : ℕ} {s : S}
    (h : allowed lba) : (writeSector wrap lba s : Fallible S E C ε Unit).run.WritesIn allowed :=
  ⟨h, fun _ => trivial⟩

theorem writesIn_writeSectors {wrap : E → ε} {ws : List (ℕ × S)} (h : ∀ w ∈ ws, allowed w.1) :
    (writeSectors wrap ws : Fallible S E C ε Unit).run.WritesIn allowed := by
  induction ws with
  | nil => exact trivial
  | cons w ws ih =>
    exact writesIn_bind (writesIn_writeSector (h w List.mem_cons_self)) fun _ =>
      ih fun v hv => h v (List.mem_cons_of_mem _ hv)

end Fallible

end BlockProgram
