import ImagineOS.Bytes
import Mathlib.Data.List.TakeDrop

/-!
# dzImage: unpacking

The bootstrap keeps the kernel as an LZ4 block behind a 24-byte header. `unpack` decodes the block
into a buffer, sequence by sequence: a token, literals, and a match that is copied byte by byte from
what has been written, so that it may overlap itself. It reports its progress in percent.
-/

namespace ImagineOS.DzImage

open List

/-! ### The header -/

/-- `MAGIC`, the text `DZIMAGE` and a zero byte. -/
def magic : List UInt8 := [68, 90, 73, 77, 65, 71, 69, 0]

def headerSize : ℕ := 24

def maxKernelSize : ℕ := 64 * 1024 * 1024

inductive UnpackError
  | invalidHeader
  | invalidSize
  | invalidLz4
  | checksumMismatch
  deriving DecidableEq, Repr

/-- `bytes[offset..offset + len]` -/
def slice (bytes : List UInt8) (offset len : ℕ) : List UInt8 := (bytes.drop offset).take len

/-- `read_u64` and `read_u32`: an integer of `w` bytes. -/
def readInt (input : List UInt8) (offset w : ℕ) : Except UnpackError ℕ :=
  if offset + w ≤ input.length then .ok (leNat (slice input offset w)) else .error .invalidHeader

def unpackedSize (image : List UInt8) : Except UnpackError ℕ :=
  if image.length < headerSize ∨ slice image 0 8 ≠ magic ∨ slice image 20 4 ≠ [0, 0, 0, 0] then
    .error .invalidHeader
  else do
    let size ← readInt image 8 8
    if size = 0 ∨ maxKernelSize < size then .error .invalidSize else .ok size

/-! ### Reading the block -/

def takeByte : List UInt8 → Except UnpackError (UInt8 × List UInt8)
  | [] => .error .invalidLz4
  | byte :: input => .ok (byte, input)

def takeU16 : List UInt8 → Except UnpackError (ℕ × List UInt8)
  | low :: high :: input => .ok (leNat [low, high], input)
  | _ => .error .invalidLz4

/-- The loop of `read_extended_length`. -/
def extendLength (length : ℕ) : List UInt8 → Except UnpackError (ℕ × List UInt8)
  | [] => .error .invalidLz4
  | byte :: input =>
    if length + byte.toNat < 2 ^ 64 then
      if byte ≠ 255 then .ok (length + byte.toNat, input)
      else extendLength (length + byte.toNat) input
    else .error .invalidLz4

def readExtendedLength (input : List UInt8) (initial : ℕ) : Except UnpackError (ℕ × List UInt8) :=
  if initial ≠ 15 then .ok (initial, input) else extendLength initial input

/-! ### The decoder -/

/-- The buffer, the number of bytes written to it, `last_progress` and what was reported so far. -/
structure State where
  output : List UInt8
  written : ℕ
  lastProgress : ℕ
  reports : List ℕ

def State.reportNewProgress (s : State) (total : ℕ) : State :=
  let progress := s.written * 100 / total % 256
  if s.lastProgress < progress then
    { s with lastProgress := progress, reports := s.reports ++ [progress] }
  else s

/-- `output[written..literal_end].copy_from_slice(..)` -/
def State.copyLiterals (s : State) (literals : List UInt8) : State :=
  { s with
    output := s.output.take s.written ++ literals ++ s.output.drop (s.written + literals.length)
    written := s.written + literals.length }

/-- The loop that copies a match of `n` bytes. -/
def State.copyMatch (total offset : ℕ) : ℕ → State → State
  | 0, s => s
  | n + 1, s =>
    let s := { s with
      output := s.output.set s.written (s.output.getD (s.written - offset) 0)
      written := s.written + 1 }
    copyMatch total offset n (if s.written % 4096 = 0 then s.reportNewProgress total else s)

variable {input rest : List UInt8}

theorem extendLength_length {length n : ℕ}
    (h : extendLength length input = .ok (n, rest)) : rest.length ≤ input.length := by
  induction input generalizing length with
  | nil => cases h
  | cons byte input ih =>
    rw [extendLength] at h
    split_ifs at h
    · obtain ⟨-, rfl⟩ := Prod.mk.inj (Except.ok.inj h)
      simp
    · exact (ih h).trans (Nat.le_succ _)

theorem readExtendedLength_length {initial n : ℕ}
    (h : readExtendedLength input initial = .ok (n, rest)) : rest.length ≤ input.length := by
  rw [readExtendedLength] at h
  split_ifs at h
  · obtain ⟨-, rfl⟩ := Prod.mk.inj (Except.ok.inj h)
    exact le_rfl
  · exact extendLength_length h

theorem takeU16_length {offset : ℕ}
    (h : takeU16 input = .ok (offset, rest)) : rest.length ≤ input.length := by
  match input, h with
  | low :: high :: input, h =>
    obtain ⟨-, rfl⟩ := Prod.mk.inj (Except.ok.inj h)
    simp only [length_cons]
    omega

/-- The loop of `unpack` over the sequences of the block. -/
def unpackFrom (size : ℕ) (s : State) (input : List UInt8) : Except UnpackError State :=
  match input with
  | [] => .ok s
  | token :: input =>
    match hliteral : readExtendedLength input (token.toNat / 16) with
    | .error e => .error e
    | .ok (literalLength, rest) =>
      if size < s.written + literalLength then .error .invalidLz4
      else if rest.length < literalLength then .error .invalidLz4
      else
        let s := (s.copyLiterals (rest.take literalLength)).reportNewProgress size
        if rest.drop literalLength = [] then .ok s
        else match hoffset : takeU16 (rest.drop literalLength) with
          | .error e => .error e
          | .ok (offset, rest') =>
            if offset = 0 ∨ s.written < offset then .error .invalidLz4
            else match hmatch : readExtendedLength rest' (token.toNat % 16) with
              | .error e => .error e
              | .ok (length, rest'') =>
                if 2 ^ 64 ≤ length + 4 ∨ size < s.written + (length + 4) then .error .invalidLz4
                else
                  have : rest''.length < input.length + 1 := by
                    have h₁ := readExtendedLength_length hliteral
                    have h₂ := takeU16_length hoffset
                    have h₃ := readExtendedLength_length hmatch
                    rw [List.length_drop] at h₂
                    omega
                  unpackFrom size ((s.copyMatch size offset (length + 4)).reportNewProgress size)
                    rest''
  termination_by input.length

/-- `unpack`: the size, and the buffer and the reports that are left. -/
def unpack (image output : List UInt8) : Except UnpackError (ℕ × List UInt8 × List ℕ) := do
  let outputSize ← unpackedSize image
  if output.length < outputSize then .error .invalidSize
  else
    let expectedChecksum ← readInt image 16 4
    let s ← unpackFrom outputSize ⟨output, 0, 0, [0]⟩ (image.drop headerSize)
    if s.written ≠ outputSize then .error .invalidLz4
    else if (crc32 (s.output.take outputSize)).toNat ≠ expectedChecksum then
      .error .checksumMismatch
    else
      .ok (outputSize, s.output, if s.lastProgress ≠ 100 then s.reports ++ [100] else s.reports)

/-! ### What is written -/

@[simp] theorem State.output_reportNewProgress (s : State) (total : ℕ) :
    (s.reportNewProgress total).output = s.output := by
  simp only [State.reportNewProgress]
  split <;> rfl

@[simp] theorem State.written_reportNewProgress (s : State) (total : ℕ) :
    (s.reportNewProgress total).written = s.written := by
  simp only [State.reportNewProgress]
  split <;> rfl

/-- The first bytes of `x` have been written in front of what the buffer `b` holds. -/
structure Written (x b : List UInt8) (s : State) : Prop where
  output_eq : s.output = x.take s.written ++ b.drop s.written
  le_length : s.written ≤ x.length

section Written

variable {x b : List UInt8} {s : State}

theorem Written.reportNewProgress (h : Written x b s) (total : ℕ) :
    Written x b (s.reportNewProgress total) := by
  refine ⟨?_, ?_⟩
  · rw [State.output_reportNewProgress, State.written_reportNewProgress]
    exact h.output_eq
  · rw [State.written_reportNewProgress]
    exact h.le_length

/-- Literals that are the next bytes of `x`. -/
theorem copyLiterals_written (h : Written x b s) {n : ℕ} (hn : s.written + n ≤ x.length) :
    Written x b (s.copyLiterals (slice x s.written n)) ∧
      (s.copyLiterals (slice x s.written n)).written = s.written + n := by
  have hlen : (slice x s.written n).length = n := by
    simp only [slice, length_take, length_drop]
    omega
  have htake : (x.take s.written).length = s.written := by
    rw [length_take]
    exact min_eq_left h.le_length
  have hwritten : (s.copyLiterals (slice x s.written n)).written = s.written + n := by
    rw [State.copyLiterals, hlen]
  refine ⟨⟨?_, by rw [hwritten]; exact hn⟩, hwritten⟩
  rw [hwritten, State.copyLiterals, hlen, h.output_eq]
  simp only
  rw [take_append_of_le_length htake.ge, take_of_length_le htake.le,
    drop_append, drop_of_length_le (by omega), nil_append, htake,
    Nat.add_sub_cancel_left, drop_drop, take_add]
  rfl

/-- A byte that is the next one of `x`. -/
theorem set_written (h : Written x b s) (hb : x.length ≤ b.length) (hlt : s.written < x.length) :
    s.output.set s.written x[s.written] =
      x.take (s.written + 1) ++ b.drop (s.written + 1) := by
  have htake : (x.take s.written).length = s.written := by
    rw [length_take]
    exact min_eq_left h.le_length
  rw [h.output_eq, set_append_right _ _ htake.le, htake, Nat.sub_self,
    drop_eq_getElem_cons (by omega : s.written < b.length), set_cons_zero,
    take_succ_eq_append_getElem hlt, append_assoc, singleton_append]

/-- A match that repeats what is `offset` bytes back. -/
theorem copyMatch_written (h : Written x b s) (hb : x.length ≤ b.length) (total : ℕ) {offset n : ℕ}
    (hn : s.written + n ≤ x.length) (hpos : 0 < offset) (hoffset : offset ≤ s.written)
    (hmatch : ∀ k, s.written ≤ k → k < s.written + n → x[k]? = x[k - offset]?) :
    Written x b (s.copyMatch total offset n) ∧
      (s.copyMatch total offset n).written = s.written + n := by
  induction n generalizing s with
  | zero => exact ⟨h, rfl⟩
  | succ n ih =>
    have hlt : s.written < x.length := by omega
    -- The byte that is copied has been written before.
    have hbyte : s.output.getD (s.written - offset) 0 = x[s.written] := by
      have hk := hmatch s.written le_rfl (by omega)
      have hlen : s.written - offset < (x.take s.written).length := by
        rw [length_take]
        omega
      rw [List.getElem?_eq_getElem hlt] at hk
      rw [h.output_eq, getD_eq_getElem?_getD, List.getElem?_append_left hlen,
        List.getElem?_take_of_lt (by omega), ← hk, Option.getD_some]
    rw [State.copyMatch, hbyte]
    simp only
    set t : State := { s with output := s.output.set s.written x[s.written]
                              written := s.written + 1 } with ht
    have hnext : Written x b t := ⟨set_written h hb hlt, hlt⟩
    have hstep : Written x b (if (s.written + 1) % 4096 = 0 then t.reportNewProgress total else t) ∧
        (if (s.written + 1) % 4096 = 0 then t.reportNewProgress total else t).written =
          s.written + 1 := by
      split
      · exact ⟨hnext.reportNewProgress total, State.written_reportNewProgress t total⟩
      · exact ⟨hnext, rfl⟩
    obtain ⟨h₁, h₂⟩ := ih hstep.1 (by rw [hstep.2]; omega) (by rw [hstep.2]; omega)
      fun k hk₁ hk₂ => hmatch k (by rw [hstep.2] at hk₁; omega) (by rw [hstep.2] at hk₂; omega)
    refine ⟨h₁, h₂.trans ?_⟩
    rw [hstep.2]
    omega

end Written

/-! ### One sequence -/

section Loop

variable {size length offset n : ℕ} {s : State} {token : UInt8}
    {input rest rest' rest'' : List UInt8}

theorem unpackFrom_literals
    (hliteral : readExtendedLength input (token.toNat / 16) = .ok (length, rest))
    (hsize : s.written + length ≤ size) (hrest : rest.length = length) :
    unpackFrom size s (token :: input) =
      .ok ((s.copyLiterals rest).reportNewProgress size) := by
  rw [unpackFrom]
  split
  · rename_i h
    rw [hliteral] at h
    cases h
  · rename_i h
    obtain ⟨rfl, rfl⟩ := Prod.mk.inj (Except.ok.inj (hliteral.symm.trans h))
    rw [if_neg (by omega), if_neg (by omega)]
    simp only
    rw [if_pos (drop_of_length_le hrest.le), take_of_length_le hrest.le]

/-- One round of the loop with a match. -/
theorem unpackFrom_match
    (hliteral : readExtendedLength input (token.toNat / 16) = .ok (length, rest))
    (hsize : s.written + length ≤ size) (hrest : length ≤ rest.length)
    (hoffset : takeU16 (rest.drop length) = .ok (offset, rest')) (hpos : 0 < offset)
    (hback : offset ≤ s.written + length)
    (hmatch : readExtendedLength rest' (token.toNat % 16) = .ok (n, rest''))
    (hn : n + 4 < 2 ^ 64) (hend : s.written + length + (n + 4) ≤ size) :
    unpackFrom size s (token :: input) = unpackFrom size
      ((((s.copyLiterals (rest.take length)).reportNewProgress size).copyMatch size offset
        (n + 4)).reportNewProgress size) rest'' := by
  have hwritten : ((s.copyLiterals (rest.take length)).reportNewProgress size).written =
      s.written + length := by
    rw [State.written_reportNewProgress, State.copyLiterals, length_take, min_eq_left hrest]
  have hne : rest.drop length ≠ [] := fun h => by
    rw [h] at hoffset
    cases hoffset
  rw [unpackFrom]
  split
  · rename_i h
    rw [hliteral] at h
    cases h
  rename_i h
  obtain ⟨rfl, rfl⟩ := Prod.mk.inj (Except.ok.inj (hliteral.symm.trans h))
  rw [if_neg (by omega), if_neg (by omega)]
  simp only
  rw [if_neg hne]
  split
  · rename_i h
    rw [hoffset] at h
    cases h
  rename_i h
  obtain ⟨rfl, rfl⟩ := Prod.mk.inj (Except.ok.inj (hoffset.symm.trans h))
  rw [if_neg (by rw [hwritten]; omega)]
  split
  · rename_i h
    rw [hmatch] at h
    cases h
  rename_i h
  obtain ⟨rfl, rfl⟩ := Prod.mk.inj (Except.ok.inj (hmatch.symm.trans h))
  rw [if_neg (by rw [hwritten]; omega)]

end Loop

end ImagineOS.DzImage
