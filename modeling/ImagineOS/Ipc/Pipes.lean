import ImagineOS.Circular
import ImagineOS.Exec.Scheduler

/-!
# Pipes

The kernel has a fixed table of pipes. A pipe is a circular buffer with the number of descriptors
for each of its ends; it lives from its creation until both numbers are zero, and then its slot may
be used again. What is read is what was written, in order and nothing of it twice.
-/

namespace ImagineOS.Ipc

open Function List Nat

open Exec (End maxPipes usizeMax)

abbrev pipeCapacity : ℕ := 4096

inductive PipeError
  | tooMany
  | invalid
  | wouldBlock
  | broken
  deriving DecidableEq

/-- `PipeError::to_errno` -/
def PipeError.toErrno : PipeError → ℤ
  | .tooMany => -23
  | .invalid => -9
  | .wouldBlock => -11
  | .broken => -32

structure Pipe where
  isOpen : Bool
  readers : ℕ
  writers : ℕ
  head : ℕ
  tail : ℕ
  length : ℕ
  buffer : Fin pipeCapacity → UInt8

/-- `Pipe::EMPTY` -/
def Pipe.empty : Pipe := ⟨false, 0, 0, 0, 0, 0, fun _ => 0⟩

/-- A pipe that was just created: it has one descriptor for each end. -/
def Pipe.created : Pipe := { Pipe.empty with isOpen := true, readers := 1, writers := 1 }

abbrev Pipes := Fin maxPipes → Pipe

def create (pipes : Pipes) : Except PipeError (Fin maxPipes) × Pipes :=
  match (List.finRange maxPipes).find? fun id => !(pipes id).isOpen with
  | none => (.error .tooMany, pipes)
  | some id => (.ok id, Function.update pipes id .created)

/-- `pipe`: the slot of an open pipe. -/
def pipe (id : ℕ) (pipes : Pipes) : Except PipeError (Fin maxPipes) :=
  if h : id < maxPipes then
    if (pipes ⟨id, h⟩).isOpen then .ok ⟨id, h⟩ else .error .invalid
  else .error .invalid

/-- The number of descriptors for an end. -/
def Pipe.count (p : Pipe) : End → ℕ
  | .reader => p.readers
  | .writer => p.writers

/-- The pipe with another number of descriptors for an end. -/
def Pipe.setCount (p : Pipe) (n : ℕ) : End → Pipe
  | .reader => { p with readers := n }
  | .writer => { p with writers := n }

/-- Another descriptor for an end. -/
def addEnd (e : End) (id : ℕ) (pipes : Pipes) : Except PipeError Unit × Pipes :=
  match pipe id pipes with
  | .error error => (.error error, pipes)
  | .ok i =>
    (.ok (), Function.update pipes i ((pipes i).setCount (min ((pipes i).count e + 1) usizeMax) e))

def addReader : ℕ → Pipes → Except PipeError Unit × Pipes := addEnd .reader

def addWriter : ℕ → Pipes → Except PipeError Unit × Pipes := addEnd .writer

/-- A descriptor less for an end; the last one of both ends frees the slot. -/
def closeEnd (e : End) (id : ℕ) (pipes : Pipes) : Pipes :=
  match pipe id pipes with
  | .error _ => pipes
  | .ok i =>
    let closed := (pipes i).setCount ((pipes i).count e - 1) e
    Function.update pipes i (if closed.readers = 0 ∧ closed.writers = 0 then .empty else closed)

def closeReader : ℕ → Pipes → Pipes := closeEnd .reader

def closeWriter : ℕ → Pipes → Pipes := closeEnd .writer

/-- The loop of `read`, over `length` bytes. -/
def Pipe.take (length : ℕ) (p : Pipe) : List UInt8 × Pipe :=
  let taken := Circular.take p.buffer length p.head
  (taken.1, { p with head := taken.2, length := p.length - length })

/-- `read`, into a buffer of `capacity` bytes: the bytes that are stored in it. -/
def read (id capacity : ℕ) (pipes : Pipes) : Except PipeError (List UInt8) × Pipes :=
  match pipe id pipes with
  | .error error => (.error error, pipes)
  | .ok i =>
    let p := pipes i
    if p.length = 0 then (if p.writers = 0 then .ok [] else .error .wouldBlock, pipes)
    else
      let taken := p.take (min capacity p.length)
      (.ok taken.1, Function.update pipes i taken.2)

/-- The loop of `write`. -/
def Pipe.put (bytes : List UInt8) (p : Pipe) : Pipe :=
  let filled := Circular.put bytes p.buffer p.tail
  { p with buffer := filled.1, tail := filled.2, length := p.length + bytes.length }

/-- `write`: the number of bytes that were accepted. -/
def write (id : ℕ) (input : List UInt8) (pipes : Pipes) : Except PipeError ℕ × Pipes :=
  match pipe id pipes with
  | .error error => (.error error, pipes)
  | .ok i =>
    let p := pipes i
    if p.readers = 0 then (.error .broken, pipes)
    else if input = [] then (.ok 0, pipes)
    else if p.length = pipeCapacity then (.error .wouldBlock, pipes)
    else
      let length := min input.length (pipeCapacity - p.length)
      (.ok length, Function.update pipes i (p.put (input.take length)))

/-! ### Queues -/

/-- The bytes in a pipe, in the order in which they were written. -/
structure Pipe.Holds (p : Pipe) (l : List UInt8) : Prop where
  length : p.length = l.length
  le : l.length ≤ pipeCapacity
  head : p.head < pipeCapacity
  tail : p.tail = (p.head + l.length) % pipeCapacity
  window : Circular.window p.buffer p.head l.length = l

variable {p : Pipe} {l : List UInt8}

theorem Pipe.Holds.eq_nil_iff (h : p.Holds l) : p.length = 0 ↔ l = [] := by
  rw [h.length, length_eq_zero_iff]

theorem Pipe.holds_created : Pipe.created.Holds [] :=
  ⟨rfl, zero_le _, zero_lt_succ _, rfl, rfl⟩

theorem Pipe.Holds.setCount (h : p.Holds l) (n : ℕ) (e : End) : (p.setCount n e).Holds l := by
  cases e <;> exact ⟨h.length, h.le, h.head, h.tail, h.window⟩

/-- **Taking** bytes takes the oldest ones. -/
theorem Pipe.Holds.take (h : p.Holds l) {length : ℕ} (hlength : length ≤ l.length) :
    (p.take length).1 = l.take length ∧ (p.take length).2.Holds (l.drop length) := by
  have hsplit : l.length = length + (l.length - length) := by omega
  have hwindow := h.window
  rw [hsplit, Circular.window_add] at hwindow
  have htake : Circular.window p.buffer p.head length = l.take length := by
    conv_rhs => rw [← hwindow]
    rw [take_left' (Circular.length_window _ _ _)]
  have hdrop : Circular.window p.buffer (p.head + length) (l.length - length) = l.drop length := by
    conv_rhs => rw [← hwindow]
    rw [drop_left' (Circular.length_window _ _ _)]
  have hle := h.le
  simp only [Pipe.take, Circular.take_eq _ _ h.head]
  refine ⟨htake, ?_, ?_, mod_lt _ (zero_lt_succ _), ?_, ?_⟩
  · rw [length_drop, h.length]
  · rw [length_drop]
    omega
  · rw [length_drop, mod_add_mod, h.tail]
    congr 1
    omega
  · rw [length_drop, Circular.window_mod, hdrop]

variable {bytes : List UInt8}

/-- **Putting** bytes puts them behind the others. -/
theorem Pipe.Holds.put (h : p.Holds l)
    (hroom : l.length + bytes.length ≤ pipeCapacity) : (p.put bytes).Holds (l ++ bytes) := by
  have htail : p.tail < pipeCapacity := by
    rw [h.tail]
    exact mod_lt _ (zero_lt_succ _)
  refine ⟨?_, ?_, h.head, ?_, ?_⟩
  · rw [Pipe.put, length_append, h.length]
  · rw [length_append]
    exact hroom
  · show (Circular.put bytes p.buffer p.tail).2 = _
    rw [Circular.put_tail _ _ htail, h.tail, mod_add_mod, length_append, add_assoc]
    rfl
  · show Circular.window (Circular.put bytes p.buffer p.tail).1 p.head (l ++ bytes).length = _
    rw [length_append, Circular.window_put bytes p.buffer (by rw [h.tail, mod_mod]) hroom,
      h.window]

/-! ### Operations -/

variable {pipes : Pipes} {i : Fin maxPipes}

theorem pipe_eq_ok {id : ℕ} : pipe id pipes = .ok i ↔ id = i ∧ (pipes i).isOpen = true := by
  rw [pipe]
  constructor
  · intro h
    split at h
    · split at h
      · rename_i hopen
        cases h
        exact ⟨rfl, hopen⟩
      · cases h
    · cases h
  · rintro ⟨rfl, hopen⟩
    rw [dif_pos i.isLt, if_pos hopen]

theorem pipe_eq_error (h : (pipes i).isOpen = false) : pipe i pipes = .error .invalid := by
  rw [pipe, dif_pos i.isLt, h]
  rfl

/-- **Creating** uses a slot that was free. -/
theorem create_eq_ok {pipes' : Pipes} (h : create pipes = (.ok i, pipes')) :
    (pipes i).isOpen = false ∧ pipes' = Function.update pipes i .created := by
  rw [create] at h
  split at h
  · cases h
  · rename_i id hid
    cases h
    exact ⟨by simpa using List.find?_some hid, rfl⟩

/-- **Reading** an open pipe. -/
theorem read_spec (hopen : (pipes i).isOpen = true) (h : (pipes i).Holds l) (capacity : ℕ) :
    (l = [] ∧ read i capacity pipes =
      (if (pipes i).writers = 0 then .ok [] else .error .wouldBlock, pipes)) ∨
    (l ≠ [] ∧ ∃ p : Pipe,
    read i capacity pipes = (.ok (l.take capacity), Function.update pipes i p) ∧
      p.Holds (l.drop capacity)) := by
  rw [read, pipe_eq_ok.mpr ⟨rfl, hopen⟩]
  dsimp only
  by_cases hempty : (pipes i).length = 0
  · exact Or.inl ⟨h.eq_nil_iff.mp hempty, by rw [if_pos hempty]⟩
  · obtain ⟨htaken, hrest⟩ := h.take (min_le_right capacity l.length)
    rw [← take_eq_take_min] at htaken
    rw [← drop_eq_drop_min] at hrest
    refine Or.inr ⟨fun hl => hempty (h.eq_nil_iff.mpr hl),
      ((pipes i).take (min capacity l.length)).2, ?_, hrest⟩
    rw [if_neg hempty, h.length, htaken]

/-- **Writing** into an open pipe. -/
theorem write_spec (hopen : (pipes i).isOpen = true) (h : (pipes i).Holds l) (input : List UInt8) :
    ((pipes i).readers = 0 ∧ write i input pipes = (.error .broken, pipes)) ∨
    ((pipes i).readers ≠ 0 ∧ input = [] ∧ write i input pipes = (.ok 0, pipes)) ∨
    ((pipes i).readers ≠ 0 ∧ input ≠ [] ∧ l.length = pipeCapacity ∧
      write i input pipes = (.error .wouldBlock, pipes)) ∨
    ((pipes i).readers ≠ 0 ∧ input ≠ [] ∧ l.length < pipeCapacity ∧ ∃ (n : ℕ) (p : Pipe),
      n = min input.length (pipeCapacity - l.length) ∧
      write i input pipes = (.ok n, Function.update pipes i p) ∧ p.Holds (l ++ input.take n)) := by
  have hle := h.le
  rw [write, pipe_eq_ok.mpr ⟨rfl, hopen⟩]
  dsimp only
  by_cases hreaders : (pipes i).readers = 0
  · exact Or.inl ⟨hreaders, by rw [if_pos hreaders]⟩
  rw [if_neg hreaders]
  by_cases hinput : input = []
  · exact Or.inr (Or.inl ⟨hreaders, hinput, by rw [if_pos hinput]⟩)
  rw [if_neg hinput, h.length]
  by_cases hfull : l.length = pipeCapacity
  · exact Or.inr (Or.inr (Or.inl ⟨hreaders, hinput, hfull, by rw [if_pos hfull]⟩))
  rw [if_neg hfull]
  refine Or.inr (Or.inr (Or.inr ⟨hreaders, hinput, by omega, _, _, rfl, rfl, h.put ?_⟩))
  rw [length_take]
  omega

/-! What is done to one pipe leaves the others alone. -/

section Frame

variable {id : ℕ} (hid : id ≠ i)

include hid

theorem addEnd_other (e : End) : (addEnd e id pipes).2 i = pipes i := by
  rw [addEnd]
  split
  · rfl
  · rename_i j hj
    obtain ⟨rfl, -⟩ := pipe_eq_ok.mp hj
    exact update_of_ne (fun h => hid (congrArg Fin.val h.symm)) _ _

theorem closeEnd_other (e : End) : closeEnd e id pipes i = pipes i := by
  rw [closeEnd]
  cases hpipe : pipe id pipes with
  | error => rfl
  | ok j =>
    obtain ⟨rfl, -⟩ := pipe_eq_ok.mp hpipe
    exact update_of_ne (fun h => hid (congrArg Fin.val h.symm)) _ _

theorem read_other (capacity : ℕ) : (read id capacity pipes).2 i = pipes i := by
  rw [read]
  split
  · rfl
  · rename_i j hj
    obtain ⟨rfl, -⟩ := pipe_eq_ok.mp hj
    dsimp only
    split
    · rfl
    · exact update_of_ne (fun h => hid (congrArg Fin.val h.symm)) _ _

theorem write_other (input : List UInt8) : (write id input pipes).2 i = pipes i := by
  rw [write]
  split
  · rfl
  · rename_i j hj
    obtain ⟨rfl, -⟩ := pipe_eq_ok.mp hj
    dsimp only
    repeat' split
    all_goals first
      | rfl
      | exact update_of_ne (fun h => hid (congrArg Fin.val h.symm)) _ _

end Frame

/-! ### Runs -/

/-- What may happen to the table, in any order. -/
inductive Operation
  | create
  | retain (e : End) (id : ℕ)
  | release (e : End) (id : ℕ)
  | read (id capacity : ℕ)
  | write (id : ℕ) (input : List UInt8)

/-- The bytes that writes accepted and reads delivered since the pipe in a slot was created. -/
structure Lifetime where
  accepted : List UInt8
  delivered : List UInt8

/-- The table, and what went through each slot of it. -/
structure State where
  pipes : Pipes
  lifetimes : ℕ → Lifetime

/-- The table of a machine that boots. -/
def State.boot : State := ⟨fun _ => .empty, fun _ => ⟨[], []⟩⟩

variable (s : State)

/-- A read delivers bytes. -/
def State.deliver (id : ℕ) (bytes : List UInt8) : ℕ → Lifetime :=
  Function.update s.lifetimes id
    { s.lifetimes id with delivered := (s.lifetimes id).delivered ++ bytes }

/-- A write accepts bytes. -/
def State.accept (id : ℕ) (bytes : List UInt8) : ℕ → Lifetime :=
  Function.update s.lifetimes id
    { s.lifetimes id with accepted := (s.lifetimes id).accepted ++ bytes }

/-- The state after a read. -/
def State.afterRead (id : ℕ) : Except PipeError (List UInt8) × Pipes → State
  | (.ok bytes, pipes) => ⟨pipes, s.deliver id bytes⟩
  | (.error _, pipes) => { s with pipes := pipes }

/-- The state after a write. -/
def State.afterWrite (id : ℕ) (input : List UInt8) : Except PipeError ℕ × Pipes → State
  | (.ok n, pipes) => ⟨pipes, s.accept id (input.take n)⟩
  | (.error _, pipes) => { s with pipes := pipes }

/-- One operation. -/
def State.next : Operation → State
  | .create =>
    match create s.pipes with
    | (.ok id, pipes) => ⟨pipes, Function.update s.lifetimes id ⟨[], []⟩⟩
    | (.error _, pipes) => { s with pipes := pipes }
  | .retain e id => { s with pipes := (addEnd e id s.pipes).2 }
  | .release e id => { s with pipes := closeEnd e id s.pipes }
  | .read id capacity => s.afterRead id (read id capacity s.pipes)
  | .write id input => s.afterWrite id input (write id input s.pipes)

variable {s}

/-- Operations one after another. -/
def run (ops : List Operation) : State := ops.foldl State.next .boot

/-- What was accepted and not delivered is in the pipe, while it is open. -/
structure State.Queues (s : State) (i : Fin maxPipes) (l : List UInt8) : Prop where
  accepted : (s.lifetimes i).accepted = (s.lifetimes i).delivered ++ l
  le : l.length ≤ pipeCapacity
  holds : (s.pipes i).isOpen = true → (s.pipes i).Holds l

theorem State.queues_boot (i : Fin maxPipes) : State.boot.Queues i [] :=
  ⟨rfl, zero_le _, fun h => absurd h Bool.false_ne_true⟩

theorem State.Queues.same {s' : State} (h : s.Queues i l) (hpipe : s'.pipes i = s.pipes i)
    (hlife : s'.lifetimes i = s.lifetimes i) : s'.Queues i l :=
  ⟨by rw [hlife, h.accepted], h.le, by rw [hpipe]; exact h.holds⟩

theorem State.Queues.create (h : s.Queues i l) : ∃ l', (s.next .create).Queues i l' := by
  rw [State.next]
  split
  · rename_i id pipes hcreate
    obtain ⟨-, rfl⟩ := create_eq_ok hcreate
    by_cases hid : id = i
    · -- A new life: nothing of the one before is left.
      subst hid
      refine ⟨[], by simp, zero_le _, fun _ => ?_⟩
      show (update s.pipes id .created id).Holds []
      rw [update_self]
      exact Pipe.holds_created
    · have hid' : (i : ℕ) ≠ id := fun he => hid (Fin.ext he.symm)
      exact ⟨l, h.same (update_of_ne (Ne.symm hid) _ _) (update_of_ne hid' _ _)⟩
  · rename_i error pipes hcreate
    have hsame : pipes = s.pipes := by
      rw [Ipc.create] at hcreate
      split at hcreate <;> cases hcreate
      rfl
    exact ⟨l, h.same (congrFun hsame i) rfl⟩

theorem State.Queues.retain (h : s.Queues i l) (e : End) (id : ℕ) :
    (s.next (.retain e id)).Queues i l := by
  by_cases hid : id = i
  · subst hid
    cases hopen : (s.pipes i).isOpen with
    | false => exact h.same (by rw [State.next, addEnd, pipe_eq_error hopen]) rfl
    | true =>
      refine ⟨h.accepted, h.le, fun _ => ?_⟩
      show ((addEnd e i s.pipes).2 i).Holds l
      rw [addEnd, pipe_eq_ok.mpr ⟨rfl, hopen⟩]
      dsimp only
      rw [update_self]
      exact (h.holds hopen).setCount _ e
  · exact h.same (addEnd_other hid e) rfl

theorem State.Queues.release (h : s.Queues i l) (e : End) (id : ℕ) :
    (s.next (.release e id)).Queues i l := by
  by_cases hid : id = i
  · subst hid
    cases hopen : (s.pipes i).isOpen with
    | false => exact h.same (by rw [State.next, closeEnd, pipe_eq_error hopen]) rfl
    | true =>
      refine ⟨h.accepted, h.le, fun hafter => ?_⟩
      have heq : (s.next (.release e i)).pipes i =
          let closed := (s.pipes i).setCount ((s.pipes i).count e - 1) e
          if closed.readers = 0 ∧ closed.writers = 0 then .empty else closed := by
        show closeEnd e i s.pipes i = _
        rw [closeEnd, pipe_eq_ok.mpr ⟨rfl, hopen⟩]
        exact update_self _ _ _
      rw [heq] at hafter ⊢
      dsimp only at hafter ⊢
      split at hafter
      · cases hafter
      · rename_i hend
        rw [if_neg hend]
        exact (h.holds hopen).setCount _ e
  · exact h.same (closeEnd_other hid e) rfl

theorem State.Queues.deliver (h : s.Queues i l) {rest : List UInt8} (hl : l = bytes ++ rest)
    (hpipe : (pipes i).Holds rest) :
    State.Queues ⟨pipes, s.deliver i bytes⟩ i rest := by
  refine ⟨?_, hpipe.le, fun _ => hpipe⟩
  simp only [State.deliver, update_self, append_assoc, ← hl]
  exact h.accepted

theorem State.Queues.accept (h : s.Queues i l) (hpipe : (pipes i).Holds (l ++ bytes)) :
    State.Queues ⟨pipes, s.accept i bytes⟩ i (l ++ bytes) := by
  refine ⟨?_, hpipe.le, fun _ => hpipe⟩
  simp only [State.accept, update_self, ← append_assoc, ← h.accepted]

theorem State.Queues.read (h : s.Queues i l) (id capacity : ℕ) :
    ∃ l', (s.next (.read id capacity)).Queues i l' := by
  rw [State.next]
  by_cases hid : id = i
  · subst hid
    cases hopen : (s.pipes i).isOpen with
    | false =>
      rw [Ipc.read, pipe_eq_error hopen]
      exact ⟨l, h.same rfl rfl⟩
    | true =>
      rcases read_spec hopen (h.holds hopen) capacity with ⟨rfl, heq⟩ | ⟨-, p, heq, hp⟩
      · rw [heq]
        split
        · exact ⟨[], h.deliver rfl (h.holds hopen)⟩
        · exact ⟨[], h.same rfl rfl⟩
      · rw [heq]
        refine ⟨l.drop capacity, h.deliver (take_append_drop capacity l).symm ?_⟩
        rwa [update_self]
  · have hpipes : (Ipc.read id capacity s.pipes).2 i = s.pipes i := read_other hid capacity
    have hid' : (i : ℕ) ≠ id := fun he => hid he.symm
    generalize Ipc.read id capacity s.pipes = after at hpipes
    refine ⟨l, ?_⟩
    rcases after with ⟨_ | bytes, pipes⟩
    · exact h.same hpipes rfl
    · exact h.same hpipes (update_of_ne hid' _ _)

theorem State.Queues.write (h : s.Queues i l) (id : ℕ) (input : List UInt8) :
    ∃ l', (s.next (.write id input)).Queues i l' := by
  rw [State.next]
  by_cases hid : id = i
  · subst hid
    cases hopen : (s.pipes i).isOpen with
    | false =>
      rw [Ipc.write, pipe_eq_error hopen]
      exact ⟨l, h.same rfl rfl⟩
    | true =>
      rcases write_spec hopen (h.holds hopen) input with
        ⟨-, heq⟩ | ⟨-, rfl, heq⟩ | ⟨-, -, -, heq⟩ | ⟨-, -, -, n, p, -, heq, hp⟩ <;> rw [heq]
      · exact ⟨l, h.same rfl rfl⟩
      · refine ⟨l ++ [], h.accept ?_⟩
        rw [take_nil, append_nil]
        exact h.holds hopen
      · exact ⟨l, h.same rfl rfl⟩
      · refine ⟨l ++ input.take n, h.accept ?_⟩
        rwa [update_self]
  · have hpipes : (Ipc.write id input s.pipes).2 i = s.pipes i := write_other hid input
    have hid' : (i : ℕ) ≠ id := fun he => hid he.symm
    generalize Ipc.write id input s.pipes = after at hpipes
    refine ⟨l, ?_⟩
    rcases after with ⟨_ | n, pipes⟩
    · exact h.same hpipes rfl
    · exact h.same hpipes (update_of_ne hid' _ _)

/-- **One operation** keeps every slot a queue. -/
theorem State.Queues.next (h : s.Queues i l) (op : Operation) :
    ∃ l', (s.next op).Queues i l' := by
  cases op with
  | create => exact h.create
  | retain e id => exact ⟨l, h.retain e id⟩
  | release e id => exact ⟨l, h.release e id⟩
  | read id capacity => exact h.read id capacity
  | write id input => exact h.write id input

/-- **Every run** keeps every slot a queue. -/
theorem run_queues (ops : List Operation) (i : Fin maxPipes) : ∃ l, (run ops).Queues i l := by
  induction ops using List.reverseRecOn with
  | nil => exact ⟨[], State.queues_boot i⟩
  | append_singleton ops op ih =>
    obtain ⟨l, hl⟩ := ih
    rw [run, foldl_append]
    exact hl.next op

/-- **Pipes are bounded queues.** In every run, what reads delivered from a pipe is the beginning of
what writes accepted since it was created, and the rest fits into the buffer. A read would block
exactly when nothing is left and there is a writer, and it is at the end exactly when nothing is
left and there is none; a write finds a broken pipe exactly when there is no reader. -/
theorem pipes_fifo (ops : List Operation) (i : Fin maxPipes) :
    let s := run ops
    let life := s.lifetimes i
    (∃ rest, life.accepted = life.delivered ++ rest ∧ rest.length ≤ pipeCapacity) ∧
    ((s.pipes i).isOpen = true →
      (∀ capacity, 0 < capacity →
        ((read i capacity s.pipes).1 = .error .wouldBlock ↔
          life.accepted = life.delivered ∧ (s.pipes i).writers ≠ 0) ∧
        ((read i capacity s.pipes).1 = .ok [] ↔
          life.accepted = life.delivered ∧ (s.pipes i).writers = 0)) ∧
      ∀ input ≠ [], (write i input s.pipes).1 = .error .broken ↔ (s.pipes i).readers = 0) := by
  obtain ⟨l, h⟩ := run_queues ops i
  refine ⟨⟨l, h.accepted, h.le⟩, fun hopen =>
    ⟨fun capacity hcapacity => ?_, fun input hinput => ?_⟩⟩
  · have hempty : ((run ops).lifetimes i).accepted = ((run ops).lifetimes i).delivered ↔
      l = [] := by
      rw [h.accepted, append_right_eq_self]
    rw [hempty]
    rcases read_spec hopen (h.holds hopen) capacity with ⟨hl, heq⟩ | ⟨hl, p, heq, -⟩
    · rw [heq]
      by_cases hwriters : ((run ops).pipes i).writers = 0 <;> simp [hwriters, hl]
    · have htake : l.take capacity ≠ [] := by
        simp only [ne_eq, take_eq_nil_iff, hl, or_false]
        omega
      simp [heq, hl, htake]
  · rcases write_spec hopen (h.holds hopen) input with
      ⟨hreaders, heq⟩ | ⟨-, hnil, -⟩ | ⟨hreaders, -, -, heq⟩ | ⟨hreaders, -, -, n, p, -, heq, -⟩
    · simp [heq, hreaders]
    · exact absurd hnil hinput
    · simp [heq, hreaders]
    · simp [heq, hreaders]

/-- A word goes through a pipe. -/
def sampleRun : State := run [.create, .write 0 [104, 105], .retain .writer 0, .read 0 8]

theorem pipes_fifo_sample : (read 0 8 sampleRun.pipes).1 = .error .wouldBlock :=
  (((pipes_fifo [.create, .write 0 [104, 105], .retain .writer 0, .read 0 8] 0).2
    (by decide +kernel)).1 8 (by decide)).1.mpr ⟨by decide +kernel, by decide +kernel⟩

end ImagineOS.Ipc
