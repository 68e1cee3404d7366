import ImagineOS.DzImage.Unpack
import ImagineOS.Stateful
import Mathlib.Data.List.Nodup

/-!
# dzImage: arbitrary bytes

The image that the bootstrap unpacks may be any bytes. Here every access to a slice is checked as
the program checks it, and every number for an overflow, so a step that would leave a slice panics;
and the buffer and the reports are kept when unpacking fails. It never panics: not for lengths that
are too long, nor for matches that reach back too far, and the loop ends with the input.
-/

namespace ImagineOS.DzImage

open Checked Stateful List Nat

/-! ### The functions of the source -/

/-- An error of the source. -/
def named {α : Type} : Except UnpackError α → Checked UnpackError α
  | .ok a => .ok a
  | .error e => fail e

/-- Whether a slice has other bytes. -/
def sliceDiffers (image : List UInt8) (start stop : ℕ) (bytes : List UInt8) :
    Checked UnpackError Bool := do
  let found ← Checked.slice image start stop
  return decide (found ≠ bytes)

/-- `read_u64` and `read_u32` -/
def readChecked (w : ℕ) (image : List UInt8) (offset : ℕ) : Checked UnpackError ℕ := do
  let stop ← add offset w
  let bytes ← okOr (getRange image offset stop) .invalidHeader
  return leNat bytes

/-- `unpacked_size` -/
def unpackedSizeChecked (image : List UInt8) : Checked UnpackError ℕ := do
  let invalid ← anyOf [
    .ok (decide (image.length < headerSize)), sliceDiffers image 0 8 magic,
    sliceDiffers image 20 24 [0, 0, 0, 0]]
  if invalid then fail .invalidHeader
  else
    let size ← readChecked 8 image 8
    if size = 0 ∨ maxKernelSize < size then fail .invalidSize else return size

/-- `take_u16` -/
def takeU16Checked (input : List UInt8) : Checked UnpackError (ℕ × List UInt8) := do
  let bytes ← okOr (getRange input 0 2) .invalidLz4
  let rest ← Checked.slice input 2 input.length
  return (leNat [← index bytes 0, ← index bytes 1], rest)

/-- `written.checked_add(length).filter(|end| *end <= output_size)` -/
def endWithin (size written length : ℕ) : Checked UnpackError ℕ := do
  let stop ← checkedAdd written length .invalidLz4
  if stop ≤ size then return stop else fail .invalidLz4

/-- `report_new_progress` -/
def reportProgress (total : ℕ) : Stateful UnpackError State Unit :=
  if total = 0 then of panic else change (·.reportNewProgress total)

/-- The loop that copies a match of `n` bytes. -/
def copyMatchChecked (size offset : ℕ) : ℕ → Stateful UnpackError State Unit
  | 0 => pure ()
  | n + 1 => do
    let s ← Stateful.read
    let back ← of (sub s.written offset)
    let byte ← of (index s.output back)
    let output ← of (setAt s.output s.written byte)
    let written ← of (add s.written 1)
    change fun s => { s with output := output, written := written }
    if written % 4096 = 0 then reportProgress size
    copyMatchChecked size offset n

/-- The body of the loop of `unpack`: the input that is left, unless the loop ends. -/
def sequence (size : ℕ) (token : UInt8) (input : List UInt8) :
    Stateful UnpackError State (Option (List UInt8)) := do
  let (literalLength, input) ← of (named (readExtendedLength input (token.toNat / 16)))
  let s ← Stateful.read
  let literalEnd ← of (endWithin size s.written literalLength)
  if input.length < literalLength then of (fail .invalidLz4)
  else
    let literals ← of (Checked.slice input 0 literalLength)
    let output ← of (copyRange s.output s.written literalEnd literals)
    let input ← of (Checked.slice input literalLength input.length)
    change fun s => { s with output := output, written := literalEnd }
    reportProgress size
    if input = [] then return none
    else
      let (offset, input) ← of (takeU16Checked input)
      let s ← Stateful.read
      if offset = 0 ∨ s.written < offset then of (fail .invalidLz4)
      else
        let (length, input) ← of (named (readExtendedLength input (token.toNat % 16)))
        let matchLength ← of (checkedAdd length 4 .invalidLz4)
        let matchEnd ← of (endWithin size s.written matchLength)
        copyMatchChecked size offset (matchEnd - s.written)
        reportProgress size
        return some input

/-- The loop of `unpack`: it panics if it has not come to its end in so many rounds. -/
def unpackLoop (size : ℕ) : ℕ → List UInt8 → Stateful UnpackError State Unit
  | _, [] => pure ()
  | 0, _ :: _ => of panic
  | rounds + 1, token :: input => do
    match ← sequence size token input with
    | none => pure ()
    | some input => unpackLoop size rounds input

/-- `unpack` -/
def unpackBytes (image : List UInt8) : Stateful UnpackError State ℕ := do
  let outputSize ← of (unpackedSizeChecked image)
  let s ← Stateful.read
  if s.output.length < outputSize then of (fail .invalidSize)
  else
    let expectedChecksum ← of (readChecked 4 image 16)
    change fun s => { s with reports := s.reports ++ [0] }
    let input ← of (Checked.slice image headerSize image.length)
    unpackLoop outputSize input.length input
    let s ← Stateful.read
    if s.written ≠ outputSize then of (fail .invalidLz4)
    else
      let bytes ← of (Checked.slice s.output 0 outputSize)
      if (crc32 bytes).toNat ≠ expectedChecksum then of (fail .checksumMismatch)
      else
        if s.lastProgress ≠ 100 then change fun s => { s with reports := s.reports ++ [100] }
        return outputSize

/-- The state before unpacking into a buffer. -/
def State.start (output : List UInt8) : State := ⟨output, 0, 0, []⟩

/-! ### What is kept -/

/-- The size that an image declares: none if its header is not valid. -/
def declaredSize (image : List UInt8) : ℕ :=
  match unpackedSize image with
  | .ok size => size
  | .error _ => 0

/-- **What is kept**: the buffer behind the declared size is as it was, and the reports increase,
from zero on. -/
structure Kept (image output : List UInt8) (s : State) : Prop where
  length : s.output.length = output.length
  rest : s.output.drop (declaredSize image) = output.drop (declaredSize image)
  increasing : s.reports.Pairwise (· < ·)
  start : ∀ report ∈ s.reports.head?, report = 0

/-- **What is returned**: the declared size, of bytes with the checksum of the header, and the last
report was the only one of 100. -/
structure Unpacked (image : List UInt8) (n : ℕ) (s : State) : Prop where
  size : unpackedSize image = .ok n
  written : s.written = n
  checksum : readInt image 16 4 = .ok (crc32 (s.output.take n)).toNat
  last : s.reports.getLast? = some 100
  once : s.reports.count 100 = 1

/-! ### The header -/

section Header

variable {image : List UInt8} {w offset : ℕ}

theorem sound_named {α : Type} (x : Except UnpackError α) :
    (named x).Sound fun a => x = .ok a := by
  cases x with
  | error e => exact .fail e
  | ok a => exact .ok rfl

theorem readChecked_eq (h : offset + w < wordLimit) :
    readChecked w image offset = named (readInt image offset w) := by
  rw [readChecked, readInt, add, if_pos h]
  show okOr (getRange image offset (offset + w)) _ >>= _ = _
  rw [getRange]
  by_cases hlength : offset + w ≤ image.length
  · rw [if_pos ⟨Nat.le_add_right _ _, hlength⟩, if_pos hlength, between, Nat.add_sub_cancel_left]
    rfl
  · rw [if_neg fun h => hlength h.2, if_neg hlength]
    rfl

theorem sliceDiffers_eq {start stop : ℕ} (hle : start ≤ stop) (h : stop ≤ image.length)
    (bytes : List UInt8) :
    sliceDiffers image start stop bytes =
      .ok (decide (DzImage.slice image start (stop - start) ≠ bytes)) := by
  rw [sliceDiffers, Checked.slice, if_pos ⟨hle, h⟩]
  rfl

/-- The header is read without a panic. -/
theorem unpackedSizeChecked_eq (image : List UInt8) :
    unpackedSizeChecked image = named (unpackedSize image) := by
  rw [unpackedSizeChecked, unpackedSize, readChecked_eq (by decide)]
  by_cases hshort : image.length < headerSize
  · rw [if_pos (Or.inl hshort), decide_eq_true hshort]
    rfl
  have hlength : 24 ≤ image.length := Nat.le_of_not_lt hshort
  rw [decide_eq_false hshort, sliceDiffers_eq (by decide) (by omega),
    sliceDiffers_eq (by decide) hlength]
  by_cases hmagic : DzImage.slice image 0 8 = magic
  · by_cases hzero : DzImage.slice image 20 4 = [0, 0, 0, 0]
    · have hvalid : ¬ (image.length < headerSize ∨ DzImage.slice image 0 8 ≠ magic ∨
          DzImage.slice image 20 4 ≠ [0, 0, 0, 0]) := by
        rintro (h | h | h)
        · exact hshort h
        · exact h hmagic
        · exact h hzero
      rw [if_neg hvalid, decide_eq_false (not_not_intro hmagic),
        decide_eq_false (not_not_intro hzero)]
      cases readInt image 8 8 with
      | error e => rfl
      | ok size =>
        by_cases hsize : size = 0 ∨ maxKernelSize < size
        · show (if size = 0 ∨ maxKernelSize < size then _ else _) =
            named (if size = 0 ∨ maxKernelSize < size then _ else _)
          rw [if_pos hsize, if_pos hsize]
          rfl
        · show (if size = 0 ∨ maxKernelSize < size then _ else _) =
            named (if size = 0 ∨ maxKernelSize < size then _ else _)
          rw [if_neg hsize, if_neg hsize]
          rfl
    · rw [if_pos (Or.inr (Or.inr hzero)), decide_eq_false (not_not_intro hmagic),
        decide_eq_true hzero]
      rfl
  · rw [if_pos (Or.inr (Or.inl hmagic)), decide_eq_true hmagic]
    rfl

end Header

/-! ### What a sequence keeps -/

/-- The decoder between two sequences. -/
structure Running (size : ℕ) (output : List UInt8) (s : State) : Prop where
  length : s.output.length = output.length
  rest : s.output.drop size = output.drop size
  increasing : s.reports.Pairwise (· < ·)
  bounded : ∀ report ∈ s.reports, report ≤ s.lastProgress
  start : s.reports.head? = some 0
  last : s.reports.getLast? = some s.lastProgress
  progress : s.lastProgress ≤ 100
  written : s.written ≤ size

section Running

variable {size offset n : ℕ} {output literals input : List UInt8} {s : State}

/-- **A report** is greater than those before it, and at most 100. -/
theorem Running.reportNewProgress (h : Running size output s) :
    Running size output (s.reportNewProgress size) := by
  have hpercent : s.written * 100 / size ≤ 100 := by
    refine Nat.div_le_of_le_mul ?_
    have := Nat.mul_le_mul_right 100 h.written
    omega
  simp only [State.reportNewProgress]
  split
  · rename_i hnew
    refine ⟨h.length, h.rest, ?_, ?_, ?_, ?_, ?_, h.written⟩
    · refine pairwise_append.mpr ⟨h.increasing, pairwise_singleton _ _, ?_⟩
      intro report hreport new hmem
      rw [mem_singleton.mp hmem]
      exact (h.bounded report hreport).trans_lt hnew
    · intro report hreport
      rcases mem_append.mp hreport with hold | hmem
      · exact (h.bounded report hold).trans hnew.le
      · exact (mem_singleton.mp hmem).le
    · rw [List.head?_append, h.start]
      rfl
    · exact List.getLast?_concat
    · exact (Nat.mod_le _ _).trans hpercent
  · exact h

theorem Running.write {l : List UInt8} {written : ℕ} (h : Running size output s)
    (hlength : l.length = s.output.length) (hrest : l.drop size = s.output.drop size)
    (hwritten : written ≤ size) :
    Running size output { s with output := l, written := written } where
  length := hlength.trans h.length
  rest := hrest.trans h.rest
  increasing := h.increasing
  bounded := h.bounded
  start := h.start
  last := h.last
  progress := h.progress
  written := hwritten

theorem Running.copyLiterals (h : Running size output s) (hsize : size ≤ output.length)
    (hfits : s.written + literals.length ≤ size) :
    Running size output (s.copyLiterals literals) := by
  have hlength := h.length
  refine h.write ?_ ?_ hfits
  · rw [length_append, length_append, length_take, length_drop]
    omega
  · have hfront : (s.output.take s.written ++ literals).length = s.written + literals.length := by
      rw [length_append, length_take, min_eq_left (by omega)]
    rw [drop_append, drop_of_length_le (by omega), nil_append, hfront,
      drop_drop, Nat.add_sub_cancel' hfits]

theorem Running.step (h : Running size output s) (hlt : s.written < size) (b : UInt8) :
    Running size output { s with output := s.output.set s.written b, written := s.written + 1 } :=
  h.write length_set (drop_set_of_lt hlt) hlt

theorem Running.copyMatch (h : Running size output s) (hfits : s.written + n ≤ size) :
    Running size output (s.copyMatch size offset n) := by
  induction n generalizing s with
  | zero => exact h
  | succ n ih =>
    rw [State.copyMatch]
    have hstep := h.step (show s.written < size by omega)
      (s.output.getD (s.written - offset) 0)
    dsimp only
    split
    · refine ih hstep.reportNewProgress ?_
      rw [State.written_reportNewProgress]
      show s.written + 1 + n ≤ size
      omega
    · refine ih hstep ?_
      show s.written + 1 + n ≤ size
      omega

theorem reportProgress_eq (hsize : 0 < size) :
    reportProgress size s = .ok () (s.reportNewProgress size) := by
  rw [reportProgress, if_neg (ne_of_gt hsize)]
  rfl

/-- **A match is copied** without a panic. -/
theorem copyMatchChecked_eq (hpos : 0 < offset) (hoffset : offset ≤ s.written)
    (hfits : s.written + n ≤ size) (hsize : size ≤ s.output.length) (hlimit : size < wordLimit) :
    copyMatchChecked size offset n s = .ok () (s.copyMatch size offset n) := by
  induction n generalizing s with
  | zero => rfl
  | succ n ih =>
    have hback : s.written - offset < s.output.length := by omega
    have hlt : s.written < s.output.length := by omega
    have hindex : (index s.output (s.written - offset) : Checked UnpackError UInt8) =
        .ok (s.output.getD (s.written - offset) 0) := by
      rw [index, List.getElem?_eq_getElem hback, getD_eq_getElem?_getD,
        List.getElem?_eq_getElem hback]
      rfl
    rw [copyMatchChecked]
    refine (bind_of_ok read_ok).trans ?_
    refine (bind_of_ok (of_ok (if_pos hoffset))).trans ?_
    refine (bind_of_ok (of_ok hindex)).trans ?_
    refine (bind_of_ok (of_ok (if_pos hlt))).trans ?_
    refine (bind_of_ok (of_ok (if_pos (show s.written + 1 < wordLimit by omega)))).trans ?_
    refine (bind_of_ok (change_ok _)).trans ?_
    rw [State.copyMatch]
    by_cases hreport : (s.written + 1) % 4096 = 0
    · simp only [if_pos hreport]
      refine (bind_of_ok (reportProgress_eq (by omega))).trans (ih ?_ ?_ ?_)
      · rw [State.written_reportNewProgress]
        exact hoffset.trans (le_succ _)
      · rw [State.written_reportNewProgress]
        show s.written + 1 + n ≤ size
        omega
      · rw [State.output_reportNewProgress]
        exact hsize.trans_eq length_set.symm
    · simp only [if_neg hreport]
      refine ih (hoffset.trans (le_succ _)) (show s.written + 1 + n ≤ size by omega) ?_
      exact hsize.trans_eq length_set.symm

theorem sound_endWithin (written length : ℕ) :
    (endWithin size written length).Sound fun stop => stop = written + length ∧ stop ≤ size := by
  refine Sound.bind (sound_checkedAdd written length _) ?_
  rintro stop ⟨rfl, -⟩
  exact .ite (fun h => .ok ⟨rfl, h⟩) fun _ => .fail _

theorem sound_takeU16Checked (input : List UInt8) :
    (takeU16Checked input).Sound fun found => takeU16 input = .ok found := by
  refine Sound.bind (sound_okOr _ _) fun bytes hbytes => ?_
  obtain ⟨-, hlength, rfl⟩ := getRange_eq_some hbytes
  match input, hlength with
  | low :: high :: input, _ =>
    refine Sound.bind (sound_slice (by simp) le_rfl) fun rest hrest => ?_
    refine Sound.bind (sound_index (by simp [between])) fun b hb => ?_
    refine Sound.bind (sound_index (by simp [between])) fun b' hb' => .ok ?_
    have hrest : rest = input := by
      simpa [between] using hrest
    simp only [between, sub_zero, drop_zero, take_succ_cons, take_zero,
      List.getElem?_cons_zero, Option.some.injEq, List.getElem?_cons_succ] at hb hb'
    rw [takeU16, hrest, hb, hb']

/-- What a sequence does, if it does not fail. -/
structure Decoded (size : ℕ) (output : List UInt8) (s : State) (token : UInt8)
    (input : List UInt8) (o : Option (List UInt8)) (t : State) : Prop where
  running : Running size output t
  last : o = none → unpackFrom size s (token :: input) = .ok t
  next : ∀ rest, o = some rest → rest.length ≤ input.length ∧
    unpackFrom size s (token :: input) = unpackFrom size t rest

/-- **One sequence**, of any bytes. -/
theorem safe_sequence (h : Running size output s) (hpos : 0 < size) (hsize : size ≤ output.length)
    (hlimit : size + 4 < wordLimit) (token : UInt8) (input : List UInt8) :
    Safe (Running size output) (sequence size token input) s
      (Decoded size output s token input) := by
  refine Safe.bind (Safe.of (sound_named _) h) ?_
  rintro ⟨literalLength, rest⟩ t ⟨hliteral, rfl⟩
  refine Safe.bind Safe.read ?_
  rintro _ _ ⟨rfl, rfl⟩
  refine Safe.bind (Safe.of (sound_endWithin _ _) h) ?_
  rintro literalEnd t ⟨⟨rfl, hend⟩, rfl⟩
  refine .ite (fun _ => .fail _ h) fun hrest => ?_
  have hrest : literalLength ≤ rest.length := Nat.le_of_not_lt hrest
  have hlength := h.length
  refine Safe.bind (Safe.of (sound_slice (Nat.zero_le _) hrest) h) ?_
  rintro literals t ⟨hliterals, rfl⟩
  rw [between_zero] at hliterals
  have hcount : literals.length = literalLength := by
    rw [hliterals, length_take, min_eq_left hrest]
  refine Safe.bind (Safe.of (sound_copyRange (Nat.le_add_right _ _) (by omega) (by omega)) h) ?_
  rintro front t ⟨hfront, rfl⟩
  refine Safe.bind (Safe.of (sound_slice hrest le_rfl) h) ?_
  rintro behind t ⟨hbehind, rfl⟩
  rw [between_length] at hbehind
  refine Safe.bind (Safe.change _) ?_
  rintro - t ht
  have hcopied : t = s.copyLiterals literals := by
    rw [ht, hfront, ← hcount]
    rfl
  have hrunning : Running size output t := by
    rw [hcopied]
    exact h.copyLiterals hsize (by omega)
  refine Safe.bind (Safe.known (reportProgress_eq hpos)) ?_
  rintro - u ⟨-, hu⟩
  have hrunning' : Running size output u := hu ▸ hrunning.reportNewProgress
  have hstate : u = (s.copyLiterals (rest.take literalLength)).reportNewProgress size := by
    rw [hu, hcopied, hliterals]
  have hwritten : u.written = s.written + literalLength := by
    rw [hu, State.written_reportNewProgress, hcopied, State.copyLiterals, hcount]
  refine .ite (fun hlast => .pure ⟨hrunning', fun _ => ?_, fun _ h => by cases h⟩) fun hmore => ?_
  · -- The literals were the rest of the input.
    have hle : rest.length ≤ literalLength := by
      rw [hbehind] at hlast
      exact drop_eq_nil_iff.mp hlast
    rw [unpackFrom_literals hliteral hend (le_antisymm hle hrest), hstate, take_of_length_le hle]
  refine Safe.bind (Safe.of (sound_takeU16Checked behind) hrunning') ?_
  rintro ⟨offset, rest'⟩ t ⟨hoffset, rfl⟩
  refine Safe.bind Safe.read ?_
  rintro _ _ ⟨rfl, rfl⟩
  refine .ite (fun _ => .fail _ hrunning') fun hvalid => ?_
  obtain ⟨hpos', hback⟩ := not_or.mp hvalid
  refine Safe.bind (Safe.of (sound_named _) hrunning') ?_
  rintro ⟨length, rest''⟩ t ⟨hmatch, rfl⟩
  refine Safe.bind (Safe.of (sound_checkedAdd length 4 _) hrunning') ?_
  rintro matchLength t ⟨⟨rfl, hfour⟩, rfl⟩
  refine Safe.bind (Safe.of (sound_endWithin _ _) hrunning') ?_
  rintro matchEnd t ⟨⟨rfl, hend'⟩, rfl⟩
  rw [Nat.add_sub_cancel_left]
  have hlength' := hrunning'.length
  have hcopy := @copyMatchChecked_eq size offset (length + 4) u (Nat.pos_of_ne_zero hpos')
    (Nat.le_of_not_lt hback) hend' (by omega) (by omega)
  refine Safe.bind (Safe.known hcopy) ?_
  rintro - t ⟨-, ht⟩
  have hrunning'' : Running size output t := ht ▸ hrunning'.copyMatch hend'
  refine Safe.bind (Safe.known (reportProgress_eq hpos)) ?_
  rintro - v ⟨-, hv⟩
  refine .pure ⟨hv ▸ hrunning''.reportNewProgress, fun h => (by cases h), ?_⟩
  rintro _ ⟨⟩
  have hle₁ := readExtendedLength_length hliteral
  have hle₂ := takeU16_length hoffset
  have hle₃ := readExtendedLength_length hmatch
  rw [hbehind] at hoffset hle₂
  rw [length_drop] at hle₂
  refine ⟨by omega, ?_⟩
  rw [unpackFrom_match hliteral hend hrest hoffset (Nat.pos_of_ne_zero hpos') (by omega) hmatch
    hfour (by omega), ← hstate, hv, ht]

/-- **The loop** comes to its end, and decodes what `unpackFrom` decodes. -/
theorem safe_unpackLoop {rounds : ℕ} (h : Running size output s) (hpos : 0 < size)
    (hsize : size ≤ output.length) (hlimit : size + 4 < wordLimit)
    (hrounds : input.length ≤ rounds) :
    Safe (Running size output) (unpackLoop size rounds input) s fun _ t =>
      Running size output t ∧ unpackFrom size s input = .ok t := by
  induction rounds generalizing s input with
  | zero =>
    obtain rfl := length_eq_zero_iff.mp (le_zero.mp hrounds)
    refine .pure ⟨h, ?_⟩
    rw [unpackFrom]
  | succ rounds ih =>
    cases input with
    | nil =>
      refine .pure ⟨h, ?_⟩
      rw [unpackFrom]
    | cons token input =>
      refine Safe.bind (safe_sequence h hpos hsize hlimit token input) ?_
      rintro (_ | rest) t ht
      · exact .pure ⟨ht.running, ht.last rfl⟩
      · obtain ⟨hlength, heq⟩ := ht.next rest rfl
        refine (ih ht.running (hlength.trans (le_of_succ_le_succ hrounds))).mono
          (fun _ h => h) ?_
        rintro - u ⟨hu, hdecoded⟩
        exact ⟨hu, heq.trans hdecoded⟩

end Running

/-! ### Images -/

section Images

variable {image output : List UInt8} {size : ℕ} {s : State}

theorem unpackedSize_eq_ok (h : unpackedSize image = .ok size) :
    headerSize ≤ image.length ∧ 0 < size ∧ size ≤ maxKernelSize := by
  rw [unpackedSize] at h
  split at h
  · cases h
  rename_i hheader
  have hlength : headerSize ≤ image.length := Nat.le_of_not_lt fun h => hheader (Or.inl h)
  cases hread : readInt image 8 8 with
  | error e =>
    rw [hread] at h
    cases h
  | ok n =>
    rw [hread] at h
    have h : (if n = 0 ∨ maxKernelSize < n then .error UnpackError.invalidSize else .ok n) =
      (.ok size : Except UnpackError ℕ) := h
    split at h
    · cases h
    rename_i hn
    cases h
    exact ⟨hlength, by omega, by omega⟩

theorem declaredSize_eq (h : unpackedSize image = .ok size) : declaredSize image = size := by
  rw [declaredSize, h]

theorem kept_start (image output : List UInt8) : Kept image output (State.start output) where
  length := rfl
  rest := rfl
  increasing := .nil
  start := nofun

theorem Running.kept (h : Running size output s) (hdeclared : declaredSize image = size) :
    Kept image output s where
  length := h.length
  rest := hdeclared ▸ h.rest
  increasing := h.increasing
  start report hreport := by
    rw [h.start] at hreport
    exact (Option.some.inj hreport).symm

theorem Running.finish (h : Running size output s) :
    let reports := if s.lastProgress ≠ 100 then s.reports ++ [100] else s.reports
    reports.Pairwise (· < ·) ∧ reports.head? = some 0 ∧ reports.getLast? = some 100 := by
  dsimp only
  split
  · rename_i hlast
    have hlt : s.lastProgress < 100 := lt_of_le_of_ne h.progress hlast
    refine ⟨pairwise_append.mpr ⟨h.increasing, pairwise_singleton _ _, ?_⟩, ?_,
      List.getLast?_concat⟩
    · intro report hreport new hmem
      rw [mem_singleton.mp hmem]
      exact (h.bounded report hreport).trans_lt hlt
    · rw [List.head?_append, h.start]
      rfl
  · rename_i hlast
    exact ⟨h.increasing, h.start, h.last.trans (congrArg some (not_not.mp hlast))⟩

theorem count_eq_one {reports : List ℕ} (h : reports.Pairwise (· < ·)) {r : ℕ}
    (hlast : reports.getLast? = some r) : reports.count r = 1 :=
  count_eq_one_of_mem (h.imp ne_of_lt) (mem_of_getLast? hlast)

/-- **Unpacking**, step by step. -/
theorem safe_unpackBytes (image output : List UInt8) :
    Safe (Kept image output) (unpackBytes image) (State.start output) fun n t =>
      Kept image output t ∧ Unpacked image n t ∧
        unpack image output = .ok (n, t.output, t.reports) := by
  have hstart := kept_start image output
  rw [unpackBytes, unpackedSizeChecked_eq]
  refine Safe.bind (Safe.of (sound_named _) hstart) ?_
  rintro size _ ⟨hdeclare, rfl⟩
  obtain ⟨hheader, hpos, hmax⟩ := unpackedSize_eq_ok hdeclare
  have hdeclared := declaredSize_eq hdeclare
  refine Safe.bind Safe.read ?_
  rintro _ _ ⟨rfl, rfl⟩
  refine .ite (fun _ => .fail _ hstart) fun hroom => ?_
  have hsize : size ≤ output.length := Nat.le_of_not_lt hroom
  rw [readChecked_eq (by decide)]
  refine Safe.bind (Safe.of (sound_named _) hstart) ?_
  rintro checksum _ ⟨hchecksum, rfl⟩
  refine Safe.bind (Safe.change _) ?_
  rintro - s₀ hs₀
  have hs₀ : s₀ = ⟨output, 0, 0, [0]⟩ := hs₀
  have hfirst : Running size output s₀ := by
    rw [hs₀]
    exact ⟨rfl, rfl, pairwise_singleton _ _, by simp, rfl, rfl, Nat.zero_le _, Nat.zero_le _⟩
  refine Safe.bind (Safe.of (sound_slice hheader le_rfl) (hfirst.kept hdeclared)) ?_
  rintro input _ ⟨hinput, rfl⟩
  rw [between_length] at hinput
  have hlimit : size + 4 < wordLimit := (Nat.add_le_add_right hmax 4).trans_lt (by decide)
  have hloop := safe_unpackLoop hfirst hpos hsize hlimit (le_refl input.length)
  refine Safe.bind (hloop.mono (fun _ h => h.kept hdeclared) fun _ _ h => h) ?_
  rintro - t ⟨hrunning, hdecoded⟩
  have hkept := hrunning.kept hdeclared
  refine Safe.bind Safe.read ?_
  rintro _ _ ⟨rfl, rfl⟩
  refine .ite (fun _ => .fail _ hkept) fun hwritten => ?_
  have hwritten : t.written = size := not_not.mp hwritten
  refine Safe.bind (Safe.of (sound_slice (Nat.zero_le _) ?_) hkept) ?_
  · rw [hrunning.length]
    exact hsize
  rintro bytes _ ⟨hbytes, rfl⟩
  rw [between_zero] at hbytes
  refine .ite (fun _ => .fail _ hkept) fun hcrc => ?_
  have hcrc : (crc32 bytes).toNat = checksum := not_not.mp hcrc
  obtain ⟨hincreasing, hhead, hlast⟩ := hrunning.finish
  -- What `unpack` returns, from the same steps.
  have hunpack : unpack image output = .ok (size, t.output,
      if t.lastProgress ≠ 100 then t.reports ++ [100] else t.reports) := by
    rw [unpack, hdeclare]
    show (if output.length < size then _ else _) = _
    rw [if_neg (Nat.not_lt.mpr hsize), hchecksum]
    show (unpackFrom size ⟨output, 0, 0, [0]⟩ (image.drop headerSize) >>= _) = _
    rw [← hs₀, ← hinput, hdecoded]
    show (if t.written ≠ size then _ else if (crc32 (t.output.take size)).toNat ≠ checksum then _
      else _) = _
    rw [if_neg (not_not_intro hwritten), ← hbytes, if_neg (not_not_intro hcrc)]
  have hfinal : ∀ u : State, u.output = t.output → u.written = t.written →
      u.reports = (if t.lastProgress ≠ 100 then t.reports ++ [100] else t.reports) →
      Kept image output u ∧ Unpacked image size u ∧
        unpack image output = .ok (size, u.output, u.reports) := by
    intro u houtput hwritten' hreports
    rw [← hreports] at hincreasing hhead hlast hunpack
    refine ⟨⟨houtput ▸ hkept.length, houtput ▸ hkept.rest, hincreasing, fun report hreport => ?_⟩,
      ⟨hdeclare, hwritten'.trans hwritten, ?_, hlast, count_eq_one hincreasing hlast⟩, ?_⟩
    · rw [hhead] at hreport
      exact (Option.some.inj hreport).symm
    · rw [houtput, ← hbytes, hcrc, hchecksum]
    · rw [hunpack, houtput]
  refine .ite (fun hnot => ?_) fun hnot => ?_
  · refine Safe.bind (Safe.change _) ?_
    rintro - u rfl
    exact .pure (hfinal _ rfl rfl (if_pos hnot).symm)
  · exact .pure (hfinal _ rfl rfl (if_neg hnot).symm)

/-- **Any bytes can be unpacked** without a panic: what fails leaves the buffer behind the declared
size as it was, and what returns has the declared size and the checksum. -/
theorem unpackBytes_safe (image output : List UInt8) :
    Safe (Kept image output) (unpackBytes image) (State.start output) fun n t =>
      Kept image output t ∧ Unpacked image n t :=
  (safe_unpackBytes image output).mono (fun _ h => h) fun _ _ h => ⟨h.1, h.2.1⟩

example : (match unpackBytes (magic ++ leBytes 8 6 ++ leBytes 4 (crc32 [1, 2, 1, 2, 1, 2]).toNat ++
    leBytes 4 0 ++ [0x20, 1, 2, 2, 0]) (State.start (List.replicate 8 0)) with
    | .ok n t => some (n, t.output, t.reports)
    | .error _ _ => none) = some (6, [1, 2, 1, 2, 1, 2, 0, 0], [0, 33, 100]) := by
  decide +kernel

end Images

end ImagineOS.DzImage
