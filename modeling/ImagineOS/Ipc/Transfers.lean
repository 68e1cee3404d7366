import ImagineOS.Ipc.Pipes
import ImagineOS.Exec.UserMemory

/-!
# Pipes: system calls

A process reads and writes pipes through descriptors, and the bytes go through a buffer of the
kernel. A write fetches the bytes from the process first, and then puts them into the pipe; a read
takes bytes out of the pipe first, and then copies them to the process. Where that copy fails, the
bytes are lost.
-/

namespace ImagineOS.Ipc

open Exec (maxPipes maxOpenFds DescriptorKind Descriptor DescriptorTable Frames Mapped End
  copyToCurrentUser copyFromCurrentUser
  copyToCurrentUser_spec copyFromCurrentUser_spec)

abbrev maxReadBuffer : ℕ := 4096

/-! ### The system calls -/

/-- A process that calls. -/
structure Caller where
  descriptors : DescriptorTable
  frames : Frames
  memory : ByteStore

/-- `process::descriptor` -/
def Caller.descriptor (c : Caller) (fd : ℕ) : Option Descriptor :=
  (Exec.fdIndex fd).bind fun fd =>
    if (c.descriptors fd).kind = .closed then none else some (c.descriptors fd)

/-- What a call leaves: the bytes that it moved, or an error, with the pipes and the memory. -/
structure Answer where
  result : Except ℤ (List UInt8)
  pipes : Pipes
  memory : ByteStore

variable (others : Descriptor → Except ℤ (List UInt8) × ByteStore)

/-- `read_fd`, when `others` says what is read from other descriptors than pipes. -/
def readFd (c : Caller) (fd address capacity : ℕ) (pipes : Pipes) : Answer :=
  if maxReadBuffer < capacity then ⟨.error (-22), pipes, c.memory⟩
  else if capacity = 0 then ⟨.ok [], pipes, c.memory⟩
  else match c.descriptor fd with
  | none => ⟨.error (-9), pipes, c.memory⟩
  | some d =>
    if d.kind = .pipeRead then
      match read d.pipe capacity pipes with
      | (.ok bytes, pipes) =>
        let (copied, memory) := copyToCurrentUser c.frames address bytes c.memory
        if copied then ⟨.ok bytes, pipes, memory⟩ else ⟨.error (-14), pipes, memory⟩
      | (.error error, pipes) => ⟨.error error.toErrno, pipes, c.memory⟩
    else ⟨(others d).1, pipes, (others d).2⟩

/-- `write_fd`, when `others` says what is written to other descriptors than pipes. -/
def writeFd (c : Caller) (fd address length : ℕ) (pipes : Pipes) : Answer :=
  if maxReadBuffer < length then ⟨.error (-22), pipes, c.memory⟩
  else match c.descriptor fd with
  | none => ⟨.error (-9), pipes, c.memory⟩
  | some d =>
    if d.kind = .pipeWrite then
      match copyFromCurrentUser c.frames address length c.memory with
      | none => ⟨.error (-14), pipes, c.memory⟩
      | some buffer =>
        match write d.pipe buffer pipes with
        | (.ok written, pipes) => ⟨.ok (buffer.take written), pipes, c.memory⟩
        | (.error error, pipes) => ⟨.error error.toErrno, pipes, c.memory⟩
    else ⟨(others d).1, pipes, (others d).2⟩

/-- The pipe of a descriptor of a kind. -/
def Caller.pipe (c : Caller) (kind : DescriptorKind) (fd : ℕ) : Option ℕ :=
  (c.descriptor fd).bind fun d => if d.kind = kind then some d.pipe else none

/-- The number of bytes in a pipe that is open. -/
def buffered (id : ℕ) (pipes : Pipes) : ℕ :=
  match Ipc.pipe id pipes with
  | .ok i => (pipes i).length
  | .error _ => 0

/-! ### Runs -/

/-- What happens to pipes: descriptors come and go, and processes read and write. -/
inductive Event
  | create
  | retain (e : End) (id : ℕ)
  | release (e : End) (id : ℕ)
  | readFd (c : Caller) (fd address capacity : ℕ)
  | writeFd (c : Caller) (fd address length : ℕ)

/-- What a system call leaves. -/
def Event.answer (pipes : Pipes) : Event → Option Answer
  | .readFd c fd address capacity => some (Ipc.readFd others c fd address capacity pipes)
  | .writeFd c fd address length => some (Ipc.writeFd others c fd address length pipes)
  | _ => none

/-- The state after a system call on the pipe `id`, if it was one on a pipe. -/
def State.afterCall (s : State) (record : ℕ → List UInt8 → ℕ → Lifetime) (id : Option ℕ)
    (answer : Answer) : State :=
  match id, answer.result with
  | some id, .ok bytes => ⟨answer.pipes, record id bytes⟩
  | _, _ => { s with pipes := answer.pipes }

/-- One event. -/
def State.after (s : State) : Event → State
  | .create => s.next .create
  | .retain e id => s.next (.retain e id)
  | .release e id => s.next (.release e id)
  | .readFd c fd address capacity =>
    s.afterCall s.deliver (c.pipe .pipeRead fd) (Ipc.readFd others c fd address capacity s.pipes)
  | .writeFd c fd address length =>
    s.afterCall s.accept (c.pipe .pipeWrite fd) (Ipc.writeFd others c fd address length s.pipes)

/-- A system call fails. -/
def Event.Fails (s : State) (e : Event) : Prop :=
  ∃ answer error, e.answer others s.pipes = some answer ∧ answer.result = .error error

/-- **The buffer of a read is there**, as far as there are bytes in the pipe for it. -/
def Event.Backed (s : State) : Event → Prop
  | .readFd c fd address capacity =>
    ∀ id, c.pipe .pipeRead fd = some id → capacity ≤ maxReadBuffer →
      Mapped c.frames address (min capacity (buffered id s.pipes))
  | _ => True

/-- The states that runs reach, when every event is an allowed one in the state before it. -/
inductive Reaches (allowed : State → Event → Prop) : State → Prop
  | boot : Reaches allowed .boot
  | event {s : State} (h : Reaches allowed s) (e : Event) (ha : allowed s e) :
      Reaches allowed (s.after others e)

variable {others} {c : Caller} {fd address : ℕ} {pipes : Pipes}

/-! ### What a call does -/

theorem pipe_of_descriptor {d : Descriptor} (hd : c.descriptor fd = some d)
    (kind : DescriptorKind) : c.pipe kind fd = if d.kind = kind then some d.pipe else none := by
  rw [Caller.pipe, hd]
  rfl

theorem pipe_of_no_descriptor (hd : c.descriptor fd = none) (kind : DescriptorKind) :
    c.pipe kind fd = none := by
  rw [Caller.pipe, hd]
  rfl

variable {id : ℕ}

theorem buffered_of_ok {i : Fin maxPipes} (h : Ipc.pipe id pipes = .ok i) :
    buffered id pipes = (pipes i).length := by
  rw [buffered, h]

variable {error : PipeError}

theorem buffered_of_error (h : Ipc.pipe id pipes = .error error) :
    buffered id pipes = 0 := by
  rw [buffered, h]

variable {pipes' : Pipes}

theorem read_error {capacity : ℕ} (h : read id capacity pipes = (.error error, pipes')) :
    pipes' = pipes ∧ buffered id pipes = 0 := by
  rw [read] at h
  split at h
  · rename_i hpipe
    cases h
    exact ⟨rfl, buffered_of_error hpipe⟩
  · rename_i i hpipe
    dsimp only at h
    split at h
    · rename_i hempty
      exact ⟨(Prod.mk.inj h).2.symm, (buffered_of_ok hpipe).trans hempty⟩
    · cases h

theorem read_ok {capacity : ℕ} {bytes : List UInt8}
    (h : read id capacity pipes = (.ok bytes, pipes')) :
    bytes.length = min capacity (buffered id pipes) ∧
      buffered id pipes' = buffered id pipes - bytes.length := by
  rw [read] at h
  split at h
  · cases h
  · rename_i i hpipe
    rw [buffered_of_ok hpipe]
    dsimp only at h
    split at h
    · rename_i hempty
      split at h <;> cases h
      rw [buffered_of_ok hpipe, hempty]
      exact ⟨(Nat.min_zero capacity).symm, rfl⟩
    · cases h
      obtain ⟨rfl, hopen⟩ := pipe_eq_ok.mp hpipe
      have hlength : ((pipes i).take (min capacity (pipes i).length)).1.length =
          min capacity (pipes i).length := Circular.length_take _ _ _
      refine ⟨hlength, ?_⟩
      rw [buffered_of_ok (pipe_eq_ok.mpr ⟨rfl, by rw [Function.update_self]; exact hopen⟩),
        Function.update_self, hlength]
      rfl

theorem write_error {input : List UInt8}
    (h : write id input pipes = (.error error, pipes')) : pipes' = pipes := by
  rw [write] at h
  split at h
  · cases h
    rfl
  · dsimp only at h
    repeat' split at h
    all_goals cases h
    all_goals rfl

/-- What `read_fd` does. -/
inductive Reading (c : Caller) (fd address capacity : ℕ) (pipes : Pipes) : Answer → Prop
  /-- There is nothing to move. -/
  | idle {answer : Answer} (hpipes : answer.pipes = pipes)
      (hid : ∀ id, c.pipe .pipeRead fd = some id → capacity ≤ maxReadBuffer →
        min capacity (buffered id pipes) = 0)
      (hresult : ∀ id, c.pipe .pipeRead fd = some id → ∀ bytes, answer.result = .ok bytes →
        bytes = []) : Reading c fd address capacity pipes answer
  /-- Bytes are taken out of the pipe, and they arrive if the buffer is there. -/
  | taken {answer : Answer} {id : ℕ} {bytes : List UInt8} {pipes' : Pipes}
      (hid : c.pipe .pipeRead fd = some id) (hcapacity : capacity ≤ maxReadBuffer)
      (hread : read id capacity pipes = (.ok bytes, pipes')) (hpipes : answer.pipes = pipes')
      (hmapped : Mapped c.frames address bytes.length → answer.result = .ok bytes ∧
        answer.memory = Paged.pokes Memory.pageSize c.frames address bytes c.memory)
      (hlost : ¬ Mapped c.frames address bytes.length → answer.result = .error (-14)) :
      Reading c fd address capacity pipes answer

theorem reading (capacity : ℕ) : Reading c fd address capacity pipes
    (readFd others c fd address capacity pipes) := by
  rw [readFd]
  split
  · rename_i hcapacity
    exact .idle rfl (fun _ _ hle => absurd hle (by omega)) fun _ _ _ h => by cases h
  split
  · rename_i hcapacity hzero
    subst hzero
    exact .idle rfl (fun _ _ _ => Nat.zero_min _) fun _ _ _ h => by cases h; rfl
  rename_i hcapacity hzero
  cases hd : c.descriptor fd with
  | none =>
    refine .idle rfl (fun _ hid => ?_) fun _ hid => ?_ <;>
      rw [pipe_of_no_descriptor hd] at hid <;> cases hid
  | some d =>
    have hpipe := pipe_of_descriptor hd .pipeRead
    dsimp only
    split
    · rename_i hkind
      rw [if_pos hkind] at hpipe
      split
      · rename_i bytes pipes' hread
        obtain ⟨hall, hnot⟩ := @copyToCurrentUser_spec c.frames address bytes c.memory
        refine .taken hpipe (by omega) hread (by split <;> rfl) (fun hmapped => ?_)
          fun hmapped => ?_
        · rw [hall hmapped]
          exact ⟨rfl, rfl⟩
        · rw [hnot hmapped]
          rfl
      · rename_i error pipes' hread
        obtain ⟨rfl, hempty⟩ := read_error hread
        refine .idle rfl (fun id hid _ => ?_) fun _ _ _ h => by cases h
        obtain rfl := Option.some.inj (hpipe.symm.trans hid)
        rw [hempty, Nat.min_zero]
    · rename_i hkind
      rw [if_neg hkind] at hpipe
      refine .idle rfl (fun _ hid => ?_) fun _ hid => ?_ <;> rw [hpipe] at hid <;> cases hid

/-- What `write_fd` does. -/
inductive Writing (c : Caller) (fd : ℕ) (pipes : Pipes) : Answer → Prop
  /-- The call does not come to a pipe, or the pipe takes nothing. -/
  | idle {answer : Answer} (hpipes : answer.pipes = pipes)
      (hresult : ∀ id, c.pipe .pipeWrite fd = some id → ∃ error, answer.result = .error error) :
      Writing c fd pipes answer
  /-- Bytes are put into the pipe. -/
  | accepted {answer : Answer} {id written : ℕ} {input : List UInt8} {pipes' : Pipes}
      (hid : c.pipe .pipeWrite fd = some id) (hwrite : write id input pipes = (.ok written, pipes'))
      (hpipes : answer.pipes = pipes') (hresult : answer.result = .ok (input.take written)) :
      Writing c fd pipes answer

theorem writing (length : ℕ) : Writing c fd pipes (writeFd others c fd address length pipes) := by
  rw [writeFd]
  split
  · exact .idle rfl fun _ _ => ⟨_, rfl⟩
  cases hd : c.descriptor fd with
  | none => exact .idle rfl fun _ _ => ⟨_, rfl⟩
  | some d =>
    have hpipe := pipe_of_descriptor hd .pipeWrite
    dsimp only
    split
    · rename_i hkind
      rw [if_pos hkind] at hpipe
      split
      · exact .idle rfl fun _ _ => ⟨_, rfl⟩
      · rename_i input hinput
        split
        · rename_i written pipes' hwrite
          exact .accepted hpipe hwrite rfl rfl
        · rename_i error pipes' hwrite
          obtain rfl := write_error hwrite
          exact .idle rfl fun _ _ => ⟨_, rfl⟩
    · rename_i hkind
      rw [if_neg hkind] at hpipe
      refine .idle rfl fun _ hid => ?_
      rw [hpipe] at hid
      cases hid

/-! ### Runs -/

variable {s : State} {i : Fin maxPipes} {l : List UInt8}

theorem State.deliver_nil (s : State) (id : ℕ) : s.deliver id [] = s.lifetimes := by
  rw [State.deliver, List.append_nil]
  exact Function.update_eq_self id s.lifetimes

variable {record : ℕ → List UInt8 → ℕ → Lifetime} {answer : Answer}

theorem State.afterCall_idle {id : Option ℕ} (hpipes : answer.pipes = s.pipes)
    (hrecord : ∀ id' bytes, id = some id' → answer.result = .ok bytes →
      record id' bytes = s.lifetimes) : s.afterCall record id answer = s := by
  cases id with
  | none => simp only [State.afterCall, hpipes]
  | some id =>
    cases hresult : answer.result with
    | error error => simp only [State.afterCall, hresult, hpipes]
    | ok bytes => simp only [State.afterCall, hresult, hpipes, hrecord id bytes rfl hresult]

theorem State.afterCall_ok {bytes : List UInt8} (h : answer.result = .ok bytes) :
    s.afterCall record (some id) answer = ⟨answer.pipes, record id bytes⟩ := by
  simp only [State.afterCall, h]

theorem State.afterCall_pipes {id : Option ℕ} :
    (s.afterCall record id answer).pipes = answer.pipes := by
  unfold State.afterCall
  split <;> rfl

/-- **A read whose buffer is there** is a read of the pipe, or does nothing. -/
theorem State.after_readFd (capacity : ℕ) (h : Event.Backed s (.readFd c fd address capacity)) :
    s.after others (.readFd c fd address capacity) = s ∨
      ∃ id, s.after others (.readFd c fd address capacity) = s.next (.read id capacity) := by
  rw [State.after]
  have hreading : Reading c fd address capacity s.pipes
    (Ipc.readFd others c fd address capacity s.pipes) := reading capacity
  generalize Ipc.readFd others c fd address capacity s.pipes = answer at hreading
  cases hreading with
  | idle hpipes _ hresult =>
    refine Or.inl (State.afterCall_idle hpipes fun id bytes hid hbytes => ?_)
    rw [hresult id hid bytes hbytes, State.deliver_nil]
  | @taken id bytes pipes' hid hcapacity hread hpipes hmapped _ =>
    have hbacked := h id hid hcapacity
    rw [← (read_ok hread).1] at hbacked
    refine Or.inr ⟨id, ?_⟩
    rw [hid, State.afterCall_ok (hmapped hbacked).1, hpipes, State.next, hread]
    rfl

/-- **A write** is a write of the pipe, or does nothing. -/
theorem State.after_writeFd (length : ℕ) :
    s.after others (.writeFd c fd address length) = s ∨
      ∃ id input, s.after others (.writeFd c fd address length) = s.next (.write id input) := by
  rw [State.after]
  have h : Writing c fd s.pipes (Ipc.writeFd others c fd address length s.pipes) := writing length
  generalize Ipc.writeFd others c fd address length s.pipes = answer at h
  cases h with
  | idle hpipes hresult =>
    refine Or.inl (State.afterCall_idle hpipes fun id bytes hid hbytes => ?_)
    obtain ⟨error, herror⟩ := hresult id hid
    rw [herror] at hbytes
    cases hbytes
  | @accepted id written input pipes' hid hwrite hpipes hresult =>
    refine Or.inr ⟨id, input, ?_⟩
    rw [hid, State.afterCall_ok hresult, hpipes, State.next, hwrite]
    rfl

/-- **One event** keeps every slot a queue, if the buffer of a read is there. -/
theorem State.Queues.after (h : s.Queues i l) {e : Event} (he : e.Backed s) :
    ∃ l', (s.after others e).Queues i l' := by
  cases e with
  | create => exact h.next .create
  | retain e id => exact h.next (.retain e id)
  | release e id => exact h.next (.release e id)
  | readFd c fd address capacity =>
    rcases @State.after_readFd others c fd address s capacity he with heq | ⟨id, heq⟩ <;> rw [heq]
    · exact ⟨l, h⟩
    · exact h.next (.read id capacity)
  | writeFd c fd address length =>
    rcases @State.after_writeFd others c fd address s length with heq | ⟨id, input, heq⟩ <;>
      rw [heq]
    · exact ⟨l, h⟩
    · exact h.next (.write id input)

theorem Event.fails_readFd (capacity : ℕ) : Event.Fails others s (.readFd c fd address capacity) ↔
    ∃ error, (Ipc.readFd others c fd address capacity s.pipes).result = .error error := by
  constructor
  · rintro ⟨answer, error, hanswer, herror⟩
    cases hanswer
    exact ⟨error, herror⟩
  · rintro ⟨error, herror⟩
    exact ⟨_, error, rfl, herror⟩

/-- **A call that fails** leaves the pipes exactly when the buffer is there. -/
theorem Event.fails_iff (e : Event) :
    (e.Fails others s → (s.after others e).pipes = s.pipes) ↔ e.Backed s := by
  cases e with
  | create | retain | release =>
    refine ⟨fun _ => trivial, ?_⟩
    rintro - ⟨answer, error, hanswer, -⟩
    cases hanswer
  | readFd c fd address capacity =>
    rw [Event.fails_readFd, State.after, State.afterCall_pipes]
    have hreading : Reading c fd address capacity s.pipes
      (Ipc.readFd others c fd address capacity s.pipes) := reading capacity
    generalize Ipc.readFd others c fd address capacity s.pipes = answer at hreading
    cases hreading with
    | idle hpipes hnothing _ =>
      refine ⟨fun _ id hid hcapacity => ?_, fun _ _ => hpipes⟩
      rw [hnothing id hid hcapacity]
      exact Paged.mapped_zero address
    | @taken id bytes pipes' hid hcapacity hread hpipes hmapped hlost =>
      obtain ⟨hlength, hrest⟩ := read_ok hread
      constructor
      · intro h id' hid' _
        obtain rfl := Option.some.inj (hid.symm.trans hid')
        rw [← hlength]
        by_contra hnot
        -- The bytes are gone, and there were some.
        have hsame := h ⟨-14, hlost hnot⟩
        rw [hpipes] at hsame
        rw [hsame] at hrest
        have hzero : bytes.length = 0 := by omega
        rw [hzero] at hnot
        exact hnot (Paged.mapped_zero address)
      · intro h hfails
        have hbacked := h id hid hcapacity
        rw [← hlength] at hbacked
        obtain ⟨error, herror⟩ := hfails
        rw [(hmapped hbacked).1] at herror
        cases herror
  | writeFd c fd address length =>
    refine ⟨fun _ => trivial, fun _ hfails => ?_⟩
    rw [State.after, State.afterCall_pipes]
    obtain ⟨_, error, hanswer, herror⟩ := hfails
    cases hanswer
    have hwriting : Writing c fd s.pipes (Ipc.writeFd others c fd address length s.pipes) :=
      writing length
    generalize Ipc.writeFd others c fd address length s.pipes = answer at hwriting herror
    cases hwriting with
    | idle hpipes => exact hpipes
    | accepted _ _ _ hresult =>
      rw [hresult] at herror
      cases herror

/-- **Nothing is lost** while the buffers of reads are there. In every run in which they are, what
reads delivered from a pipe is the beginning of what writes accepted. In each of its states a call
that fails leaves the pipes exactly when it is not a read without its buffer. -/
theorem transfers_lossless (others : Descriptor → Except ℤ (List UInt8) × ByteStore) (s : State)
    (h : Reaches others (fun s e => e.Backed s) s) :
    (∀ i : Fin maxPipes, (s.lifetimes i).delivered <+: (s.lifetimes i).accepted) ∧
      ∀ e : Event, (e.Fails others s → (s.after others e).pipes = s.pipes) ↔ e.Backed s := by
  refine ⟨fun i => ?_, fun e => e.fails_iff⟩
  have hqueues : ∃ l, s.Queues i l := by
    induction h with
    | boot => exact ⟨[], State.queues_boot i⟩
    | event _ e he ih =>
      obtain ⟨l, hl⟩ := ih
      exact hl.after he
  obtain ⟨l, hl⟩ := hqueues
  exact ⟨l, hl.accepted.symm⟩

/-! ### A read without a buffer -/

/-- A process with both ends of the first pipe. Its first page is there, and starts with a word. -/
def sampleCaller : Caller where
  descriptors fd := if fd = 0 then ⟨.pipeRead, 0⟩ else ⟨.pipeWrite, 0⟩
  frames page := if page = 0 then some 0 else none
  memory a := if a = 0 then 104 else 105

/-- Nothing else is read or written. -/
def nothingElse (_ : Descriptor) : Except ℤ (List UInt8) × ByteStore := (.error (-9), fun _ => 0)

/-- Events one after another. -/
def runEvents (events : List Event) : State :=
  events.foldl (State.after nothingElse) .boot

theorem reaches_runEvents {allowed : State → Event → Prop} (events : List Event) :
    (∀ before e after, events = before ++ e :: after → allowed (runEvents before) e) →
      Reaches nothingElse allowed (runEvents events) := by
  induction events using List.reverseRecOn with
  | nil => exact fun _ => .boot
  | append_singleton events e ih =>
    intro h
    rw [runEvents, List.foldl_append]
    refine .event (ih fun before e' after heq => ?_) e (h events e [] rfl)
    exact h before e' (after ++ [e]) (by rw [heq, List.append_assoc, List.cons_append])

/-- A word is written, and half of it is read. -/
def faithfulEvents : List Event :=
  [.create, .writeFd sampleCaller 1 0 2, .readFd sampleCaller 0 16 1]

theorem transfers_lossless_sample :
    ((runEvents faithfulEvents).lifetimes 0).delivered <+:
      ((runEvents faithfulEvents).lifetimes 0).accepted := by
  refine (transfers_lossless nothingElse _ (reaches_runEvents faithfulEvents ?_)).1 0
  intro before e after heq
  have hmem : e ∈ faithfulEvents := heq ▸ List.mem_append_right before List.mem_cons_self
  simp only [faithfulEvents, List.mem_cons, List.not_mem_nil, or_false] at hmem
  obtain rfl | rfl | rfl := hmem
  · trivial
  · trivial
  · intro id _ _ k hk
    obtain rfl : k = 0 := by omega
    exact ⟨by decide, by decide⟩

/-- A word is written, and half of it is read into a page that is not there. -/
def lossyEvents : List Event :=
  [.create, .writeFd sampleCaller 1 0 2, .readFd sampleCaller 0 8192 1, .readFd sampleCaller 0 16 1]

/-- **Bytes are lost** where the buffer of a read is not there: the call fails, and what it took
is not delivered any more. -/
theorem bytes_are_lost : ∃ s, Reaches nothingElse (fun _ _ => True) s ∧
    ¬ (s.lifetimes 0).delivered <+: (s.lifetimes 0).accepted :=
  ⟨runEvents lossyEvents, reaches_runEvents _ fun _ _ _ _ => trivial, by decide +kernel⟩

end ImagineOS.Ipc
