import ImagineOS.Checked
import ImagineOS.Circular

/-!
# Console: the log of the kernel

What the kernel writes to its console is kept in a circular buffer, for programs that ask for it
later. Only the latest bytes are kept: the buffer represents the whole history of what was appended,
with zeros before it (`LogBuffer.Keeps`), and reading gives a suffix of that history.
-/

namespace ImagineOS.KernelLog

open Checked Circular List

def capacity : ℕ := 4096

structure LogBuffer where
  bytes : List UInt8
  next : ℕ
  length : ℕ

namespace LogBuffer

/-- `LogBuffer::new` -/
def new : LogBuffer := ⟨List.replicate capacity 0, 0, 0⟩

/-- The loop of `append`. -/
def appendByte (byte : UInt8) (log : LogBuffer) : Checked Empty LogBuffer := do
  let bytes ← setAt log.bytes log.next byte
  return ⟨bytes, (log.next + 1) % capacity, min (log.length + 1) capacity⟩

/-- `LogBuffer::append` -/
def append (log : LogBuffer) (bytes : List UInt8) : Checked Empty LogBuffer := do
  let kept ← if capacity < bytes.length then slice bytes (bytes.length - capacity) bytes.length
    else .ok bytes
  each appendByte kept log

/-- The second copy of `read`, from the front of the buffer. -/
def readFront (log : LogBuffer) (first length : ℕ) (output : List UInt8) :
    Checked Empty (List UInt8) := do
  if first < length then copyRange output first length (← slice log.bytes 0 (length - first))
  else return output

/-- `LogBuffer::read`: the number of bytes, and what is in the output then. -/
def read (log : LogBuffer) (output : List UInt8) : Checked Empty (ℕ × List UInt8) := do
  let length := min log.length output.length
  let skipped ← sub log.length length
  let oldest ← sub (log.next + capacity) log.length
  let start := (oldest + skipped) % capacity
  let room ← sub capacity start
  let first := min length room
  let output ← copyRange output 0 first (← slice log.bytes start (start + first))
  let output ← log.readFront first length output
  return (length, output)

/-- Calls of `append`, one after another. -/
def appendAll (log : LogBuffer) (calls : List (List UInt8)) : Checked Empty LogBuffer :=
  each (fun bytes log => log.append bytes) calls log

/-- What was appended. -/
structure Keeps (log : LogBuffer) (history : List UInt8) : Prop where
  latest : Latest 0 capacity history log.bytes log.next
  length : log.length = min history.length capacity

variable {log : LogBuffer} {history bytes : List UInt8}

theorem keeps_new : Keeps new [] := ⟨.empty (by decide), rfl⟩

/-- **A byte** is appended. -/
theorem Keeps.appendByte (h : log.Keeps history) (byte : UInt8) :
    ∃ log', LogBuffer.appendByte byte log = .ok log' ∧ log'.Keeps (history ++ [byte]) := by
  have hnext : log.next < log.bytes.length := h.latest.length.symm ▸ h.latest.lt
  refine ⟨⟨log.bytes.set log.next byte, (log.next + 1) % capacity,
    min (log.length + 1) capacity⟩, ?_, h.latest.set byte, ?_⟩
  · rw [LogBuffer.appendByte, setAt_eq hnext, ok_bind]
    rfl
  · show min (log.length + 1) capacity = min (history ++ [byte]).length capacity
    rw [h.length, length_append, length_singleton]
    omega

theorem Keeps.each (h : log.Keeps history) (bytes : List UInt8) :
    ∃ log', Checked.each LogBuffer.appendByte bytes log = .ok log' ∧
      log'.Keeps (history ++ bytes) := by
  induction bytes generalizing log history with
  | nil => exact ⟨log, rfl, by rwa [append_nil]⟩
  | cons byte rest ih =>
    obtain ⟨log', hbyte, hkeeps⟩ := h.appendByte byte
    obtain ⟨log'', hrest, hkeeps'⟩ := ih hkeeps
    rw [append_assoc] at hkeeps'
    exact ⟨log'', by rw [Checked.each, hbyte, ok_bind, hrest], hkeeps'⟩

/-- **Appending** makes the history longer. -/
theorem Keeps.append (h : log.Keeps history) (bytes : List UInt8) :
    ∃ log', log.append bytes = .ok log' ∧ log'.Keeps (history ++ bytes) := by
  by_cases hlong : capacity < bytes.length
  · have hdrop : (bytes.drop (bytes.length - capacity)).length = capacity := by
      rw [length_drop]
      omega
    obtain ⟨log', hloop, hkeeps⟩ := h.each (bytes.drop (bytes.length - capacity))
    have hlatest := @Latest.insert _ _ _ _ (bytes.take (bytes.length - capacity)) _ _ _
      hkeeps.latest hdrop.ge
    rw [take_append_drop] at hlatest
    refine ⟨log', ?_, hlatest, ?_⟩
    · rw [LogBuffer.append, if_pos hlong, slice_eq (Nat.sub_le _ _) le_rfl, ok_bind, between_length]
      exact hloop
    · rw [hkeeps.length, length_append, length_append, hdrop]
      omega
  · obtain ⟨log', hloop, hkeeps⟩ := h.each bytes
    refine ⟨log', ?_, hkeeps⟩
    rw [LogBuffer.append, if_neg hlong, ok_bind]
    exact hloop

theorem readFront_eq {first count : ℕ} {output : List UInt8} (hfirst : first ≤ count)
    (hcount : count ≤ output.length) (hfront : count - first ≤ log.bytes.length) :
    log.readFront first count output =
      .ok (output.take first ++ log.bytes.take (count - first) ++ output.drop count) := by
  rw [readFront]
  split
  · rw [slice_eq (Nat.zero_le _) hfront, ok_bind, between_zero,
      copyRange_eq hfirst hcount (length_take_of_le hfront)]
  · have heq : first = count := by omega
    rw [heq, Nat.sub_self, take_zero, append_nil, take_append_drop]
    rfl

/-- **Reading** gives the latest bytes. -/
theorem Keeps.read (h : log.Keeps history) (output : List UInt8) :
    log.read output = .ok (min log.length output.length,
      history.rtake (min log.length output.length) ++
        output.drop (min log.length output.length)) := by
  have hlength := h.length
  have hbytes : log.bytes.length = capacity := h.latest.length
  rw [LogBuffer.read]
  dsimp only
  generalize hcount : min log.length output.length = count
  have hstart : log.next + capacity - log.length + (log.length - count) =
      log.next + (capacity - count) := by omega
  rw [sub_eq (by omega), ok_bind, sub_eq (by omega), ok_bind, hstart]
  have htake := h.latest.take (show count ≤ capacity by omega)
    (show count ≤ history.length by omega)
  have hlt : (log.next + (capacity - count)) % capacity < capacity :=
    Nat.mod_lt _ (by decide)
  generalize (log.next + (capacity - count)) % capacity = start at htake hlt ⊢
  rw [sub_eq hlt.le, ok_bind, slice_eq (by omega) (by omega), ok_bind]
  rw [take_rotate (by omega) (by omega), hbytes] at htake
  generalize hfirst : min count (capacity - start) = first at htake ⊢
  have hfirstle : first ≤ count := by omega
  have hcopied : between log.bytes start (start + first) = (log.bytes.drop start).take first := by
    rw [between, Nat.add_sub_cancel_left]
  generalize (log.bytes.drop start).take first = copied at htake hcopied
  have hsize : copied.length = first := by
    rw [← hcopied, between, Nat.add_sub_cancel_left, length_take, length_drop]
    omega
  have hfront : (output.take 0 ++ copied ++ output.drop first).take first = copied := by
    rw [take_zero, nil_append, take_left' hsize]
  have hback : (output.take 0 ++ copied ++ output.drop first).drop count = output.drop count := by
    rw [take_zero, nil_append, drop_append, drop_of_length_le (by omega), hsize,
      drop_drop, nil_append]
    congr 1
    omega
  have hroom : count ≤ (output.take 0 ++ copied ++ output.drop first).length := by
    rw [take_zero, nil_append, length_append, hsize, length_drop]
    omega
  rw [hcopied, copyRange_eq (Nat.zero_le _) (by omega) hsize, ok_bind,
    readFront_eq hfirstle hroom (by omega), hfront, hback, htake]
  rfl

theorem Keeps.appendAll (h : log.Keeps history) (calls : List (List UInt8)) :
    ∃ log', log.appendAll calls = .ok log' ∧ log'.Keeps (history ++ calls.flatten) := by
  induction calls generalizing log history with
  | nil => exact ⟨log, rfl, by rwa [flatten_nil, append_nil]⟩
  | cons bytes calls ih =>
    obtain ⟨log', hbytes, hkeeps⟩ := h.append bytes
    obtain ⟨log'', hrest, hkeeps'⟩ := ih hkeeps
    rw [append_assoc, ← flatten_cons] at hkeeps'
    refine ⟨log'', ?_, hkeeps'⟩
    rw [LogBuffer.appendAll, Checked.each, hbytes, ok_bind]
    exact hrest

/-- **The log keeps the latest bytes.** After any calls of `append`, `read` gives as many bytes as
fit into the output and into the log, and they are the last ones that were appended, in order; what
is behind them in the output is not changed. -/
theorem read_history (calls : List (List UInt8)) (output : List UInt8) :
    let count := min (min output.length capacity) calls.flatten.length
    new.appendAll calls >>= (read · output) =
      .ok (count, calls.flatten.rtake count ++ output.drop count) := by
  intro count
  obtain ⟨log, hlog, hkeeps⟩ := keeps_new.appendAll calls
  have hcount : min log.length output.length = count := by
    rw [hkeeps.length, nil_append]
    omega
  rw [hlog, ok_bind, hkeeps.read, hcount, nil_append]

end LogBuffer

end ImagineOS.KernelLog
