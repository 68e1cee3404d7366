import ImagineOS.DzImage.Unpack

/-!
# dzImage: packing

`dzpack` compresses a kernel greedily: at each position it looks up where the same four bytes were
last seen, by a hash of them, and emits a sequence when they are there again and not too far back.
What it emits is what `unpack` reads (`unpack_dzImage`): the round trip of every kernel.
-/

namespace ImagineOS.DzImage

open List

/-! ### Emitting sequences -/

def emitExtendedLength (length : ℕ) : List UInt8 :=
  if 255 ≤ length then 255 :: emitExtendedLength (length - 255) else [UInt8.ofNat length]
  termination_by length

/-- The bytes after a nibble of a length, if there are any. -/
def emitExtension (length : ℕ) : List UInt8 :=
  if 15 ≤ length then emitExtendedLength (length - 15) else []

def emitSequence (literals : List UInt8) (offset matchLength : ℕ) : List UInt8 :=
  UInt8.ofNat (min literals.length 15 * 16 + min (matchLength - 4) 15) ::
    (emitExtension literals.length ++ literals ++ leBytes 2 (offset % 2 ^ 16) ++
      emitExtension (matchLength - 4))

def emitLastLiterals (literals : List UInt8) : List UInt8 :=
  UInt8.ofNat (min literals.length 15 * 16) :: (emitExtension literals.length ++ literals)

/-! ### Finding matches -/

def hashSequence (bytes : List UInt8) : ℕ :=
  leNat (bytes.take 4) * 2654435761 % 2 ^ 32 / 2 ^ 16

/-- The table of positions by hash; `none` is `usize::MAX`. -/
abbrev Heads : Type := ℕ → Option ℕ

/-- The candidate at `cursor`, when it has the same four bytes and is not too far back. -/
def accepted (input : List UInt8) (table : Heads) (cursor : ℕ) : Option ℕ :=
  (table (hashSequence (slice input cursor 4))).filter fun candidate =>
    cursor - candidate ≤ 2 ^ 16 - 1 ∧ slice input candidate 4 = slice input cursor 4

/-- The loop that extends a match. -/
def matchEnd (input : List UInt8) (candidateEnd end_ : ℕ) : ℕ :=
  if end_ < input.length ∧ input[end_]? = input[candidateEnd]? then
    matchEnd input (candidateEnd + 1) (end_ + 1)
  else end_
  termination_by input.length - end_

/-- The loop that enters positions into the table after a match. -/
def refresh (input : List UInt8) (cursor update : ℕ) (table : Heads) : Heads :=
  if update + 4 ≤ cursor then
    refresh input cursor (update + 1)
      (Function.update table (hashSequence (slice input update 4)) (some update))
  else table
  termination_by cursor - update

theorem le_matchEnd (input : List UInt8) (candidateEnd end_ : ℕ) :
    end_ ≤ matchEnd input candidateEnd end_ := by
  induction candidateEnd, end_ using matchEnd.induct input with
  | case1 candidateEnd end_ h ih =>
    rw [matchEnd, if_pos h]
    omega
  | case2 candidateEnd end_ h =>
    rw [matchEnd, if_neg h]

/-- The loop of `compress`: what it emits from `cursor` on, when what follows `anchor` has not been
emitted. -/
def compressFrom (input : List UInt8) (table : Heads) (anchor cursor : ℕ) : List UInt8 :=
  if cursor + 4 ≤ input.length then
    let table' := Function.update table (hashSequence (slice input cursor 4)) (some cursor)
    match accepted input table cursor with
    | none => compressFrom input table' anchor (cursor + 1)
    | some candidate =>
      let end_ := matchEnd input (candidate + 4) (cursor + 4)
      have := le_matchEnd input (candidate + 4) (cursor + 4)
      emitSequence (slice input anchor (cursor - anchor)) (cursor - candidate) (end_ - cursor) ++
        compressFrom input (refresh input end_ (end_ - 2) table') end_ end_
  else emitLastLiterals (input.drop anchor)
  termination_by input.length - cursor

def compress (input : List UInt8) : List UInt8 := compressFrom input (fun _ => none) 0 0

/-- The image of a kernel: the header that `run` writes, and the block. -/
def dzImage (input : List UInt8) : List UInt8 :=
  magic ++ leBytes 8 input.length ++ leBytes 4 (crc32 input).toNat ++ [0, 0, 0, 0] ++ compress input

/-- `run`: the image, when the size of the kernel is supported. -/
def pack (input : List UInt8) : Option (List UInt8) :=
  if input = [] ∨ maxKernelSize < input.length then none else some (dzImage input)

/-! ### Reading what is emitted -/

section Reading

variable {n : ℕ}

theorem extendLength_emitExtendedLength {length : ℕ} (rest : List UInt8) (h : length + n < 2 ^ 64) :
    extendLength length (emitExtendedLength n ++ rest) = .ok (length + n, rest) := by
  induction n using Nat.strong_induction_on generalizing length with
  | _ n ih =>
  rw [emitExtendedLength]
  split
  · have h255 : (255 : UInt8).toNat = 255 := rfl
    have hsum : length + 255 + (n - 255) = length + n := by omega
    rw [cons_append, extendLength, h255, if_pos (by omega), if_neg (not_not.mpr rfl),
      ih (n - 255) (by omega) (by omega), hsum]
  · have hn : (UInt8.ofNat n).toNat = n := by
      rw [UInt8.toNat_ofNat']
      omega
    have hne : UInt8.ofNat n ≠ 255 := fun he => by
      have := congrArg UInt8.toNat he
      rw [hn, show (255 : UInt8).toNat = 255 from rfl] at this
      omega
    rw [singleton_append, extendLength, hn, if_pos h, if_pos hne]

/-- **A length** is read back from its nibble and what follows it. -/
theorem readExtendedLength_emitExtension (rest : List UInt8) (h : n < 2 ^ 64) :
    readExtendedLength (emitExtension n ++ rest) (min n 15) = .ok (n, rest) := by
  rw [readExtendedLength, emitExtension]
  by_cases hn : 15 ≤ n
  · have hmin : min n 15 = 15 := by omega
    have hsum : 15 + (n - 15) = n := by omega
    rw [hmin, if_neg (not_not.mpr rfl), if_pos hn, extendLength_emitExtendedLength _ (by omega),
      hsum]
  · rw [if_pos (by omega), if_neg hn, nil_append, min_eq_left (by omega)]

theorem takeU16_leBytes (rest : List UInt8) (h : n < 2 ^ 16) :
    takeU16 (leBytes 2 n ++ rest) = .ok (n, rest) := by
  have hn := leNat_leBytes (w := 2) (n := n) (by omega)
  exact congrArg (fun m => Except.ok (m, rest)) hn

theorem token_nibbles {i j : ℕ} (hi : i ≤ 15) (hj : j ≤ 15) :
    (UInt8.ofNat (i * 16 + j)).toNat / 16 = i ∧ (UInt8.ofNat (i * 16 + j)).toNat % 16 = j := by
  rw [UInt8.toNat_ofNat', Nat.mod_eq_of_lt (by omega)]
  omega

theorem length_slice (x : List UInt8) {i : ℕ} (h : i + n ≤ x.length) :
    (slice x i n).length = n := by
  rw [slice, length_take, length_drop]
  omega

variable {x b : List UInt8} {s : State}

/-- **The last literals** are read. -/
theorem unpackFrom_emitLastLiterals (hw : Written x b s) (hx : x.length < 2 ^ 64) :
    ∃ s', Written x b s' ∧ s'.written = x.length ∧
      unpackFrom x.length s (emitLastLiterals (x.drop s.written)) = .ok s' := by
  have hle := hw.le_length
  set literals := x.drop s.written with hliterals
  have hslice : literals = slice x s.written (x.length - s.written) := by
    rw [slice, take_of_length_le (by rw [length_drop])]
  have hlen : literals.length = x.length - s.written := by rw [hliterals, length_drop]
  obtain ⟨hcopy, hwritten⟩ := copyLiterals_written hw (n := x.length - s.written) (by omega)
  rw [← hslice] at hcopy hwritten
  have hread : readExtendedLength (emitExtension literals.length ++ literals)
      ((UInt8.ofNat (min literals.length 15 * 16)).toNat / 16) =
        .ok (literals.length, literals) := by
    rw [← Nat.add_zero (min literals.length 15 * 16),
      (token_nibbles (min_le_right _ _) (Nat.zero_le 15)).1]
    exact readExtendedLength_emitExtension literals (by omega)
  refine ⟨_, hcopy.reportNewProgress x.length, ?_, unpackFrom_literals hread (by omega) rfl⟩
  rw [State.written_reportNewProgress, hwritten]
  omega

/-- **A sequence** is read. -/
theorem unpackFrom_emitSequence (hw : Written x b s) (hb : x.length ≤ b.length)
    (hx : x.length < 2 ^ 64) {cursor offset : ℕ} (hcursor : s.written ≤ cursor)
    (hpos : 0 < offset) (hback : offset ≤ cursor) (h16 : offset < 2 ^ 16) (h4 : 4 ≤ n)
    (hend : cursor + n ≤ x.length)
    (hmatch : ∀ k, cursor ≤ k → k < cursor + n → x[k]? = x[k - offset]?) (rest : List UInt8) :
    ∃ s', Written x b s' ∧ s'.written = cursor + n ∧
      unpackFrom x.length s
        (emitSequence (slice x s.written (cursor - s.written)) offset n ++ rest) =
          unpackFrom x.length s' rest := by
  set literals := slice x s.written (cursor - s.written) with hliterals
  have hlen : literals.length = cursor - s.written := length_slice x (by omega)
  obtain ⟨hcopy, hwritten⟩ := copyLiterals_written hw (n := cursor - s.written) (by omega)
  rw [← hliterals] at hcopy hwritten
  have hcopied := hcopy.reportNewProgress x.length
  have hcursor' : ((s.copyLiterals literals).reportNewProgress x.length).written = cursor := by
    rw [State.written_reportNewProgress, hwritten]
    omega
  obtain ⟨hmatched, hend'⟩ := copyMatch_written hcopied hb x.length (n := n) (by omega) hpos
    (by omega) (by rw [hcursor']; exact hmatch)
  refine ⟨_, hmatched.reportNewProgress x.length, ?_, ?_⟩
  · rw [State.written_reportNewProgress, hend', hcursor']
  obtain ⟨hhigh, hlow⟩ := token_nibbles (min_le_right literals.length 15) (min_le_right (n - 4) 15)
  set token := UInt8.ofNat (min literals.length 15 * 16 + min (n - 4) 15) with htoken
  set tail := leBytes 2 offset ++ (emitExtension (n - 4) ++ rest) with htail
  have hliteral : readExtendedLength (emitExtension literals.length ++ (literals ++ tail))
      (token.toNat / 16) = .ok (literals.length, literals ++ tail) := by
    rw [hhigh]
    exact readExtendedLength_emitExtension _ (by omega)
  have hoffset : takeU16 ((literals ++ tail).drop literals.length) =
      .ok (offset, emitExtension (n - 4) ++ rest) := by
    rw [drop_left]
    exact takeU16_leBytes _ h16
  have hlength : readExtendedLength (emitExtension (n - 4) ++ rest) (token.toNat % 16) =
      .ok (n - 4, rest) := by
    rw [hlow]
    exact readExtendedLength_emitExtension _ (by omega)
  have hround := unpackFrom_match hliteral (show s.written + literals.length ≤ x.length by omega)
    (by simp) hoffset hpos (by omega) hlength (by omega) (by omega)
  rw [take_left, Nat.sub_add_cancel h4] at hround
  rw [← hround, emitSequence, Nat.mod_eq_of_lt h16]
  simp only [cons_append, append_assoc, htail, htoken]

end Reading

/-! ### The compressor -/

section Compress

variable {x b : List UInt8}

theorem getElem?_slice {i n k : ℕ} (h : k < n) :
    (slice x i n)[k]? = x[i + k]? := by
  rw [slice, List.getElem?_take_of_lt h, List.getElem?_drop]

theorem matchEnd_le {candidateEnd end_ : ℕ} (h : end_ ≤ x.length) :
    matchEnd x candidateEnd end_ ≤ x.length := by
  induction candidateEnd, end_ using matchEnd.induct x with
  | case1 candidateEnd end_ h' ih =>
    rw [matchEnd, if_pos h']
    exact ih h'.1
  | case2 candidateEnd end_ h' =>
    rw [matchEnd, if_neg h']
    exact h

theorem matchEnd_matches {candidateEnd end_ k : ℕ} (hlt : candidateEnd ≤ end_) (hk : end_ ≤ k)
    (hk' : k < matchEnd x candidateEnd end_) : x[k]? = x[k - (end_ - candidateEnd)]? := by
  induction candidateEnd, end_ using matchEnd.induct x with
  | case1 candidateEnd end_ h ih =>
    rw [matchEnd, if_pos h] at hk'
    rcases hk.lt_or_eq with hk | rfl
    · rw [ih (by omega) hk hk', Nat.add_sub_add_right]
    · rw [h.2, Nat.sub_sub_self hlt]
  | case2 candidateEnd end_ h =>
    rw [matchEnd, if_neg h] at hk'
    omega

variable {cursor : ℕ} {table : Heads}

theorem accepted_eq_some {candidate : ℕ} (h : accepted x table cursor = some candidate) :
    table (hashSequence (slice x cursor 4)) = some candidate ∧ cursor - candidate < 2 ^ 16 ∧
      slice x candidate 4 = slice x cursor 4 := by
  obtain ⟨h₁, h₂⟩ := Option.filter_eq_some_iff.mp h
  simp only [decide_eq_true_eq] at h₂
  exact ⟨h₁, by omega, h₂.2⟩

theorem refresh_lt {update : ℕ} (h : ∀ k p, table k = some p → p < cursor) :
    ∀ k p, refresh x cursor update table k = some p → p < cursor := by
  induction update, table using refresh.induct x cursor with
  | case1 update table hle ih =>
    rw [refresh, if_pos hle]
    refine ih fun k p hp => ?_
    rw [Function.update_apply] at hp
    split at hp
    · have := Option.some.inj hp
      omega
    · exact h k p hp
  | case2 update table hle =>
    rw [refresh, if_neg hle]
    exact h

/-- **The two loops** side by side: a decoder that is right up to the anchor is right to the end
after reading the rest of what the compressor emits. -/
theorem unpackFrom_compressFrom (hb : x.length ≤ b.length) (hx : x.length < 2 ^ 64)
    {anchor : ℕ} (hanchor : anchor ≤ cursor) (htable : ∀ k p, table k = some p → p < cursor)
    {s : State} (hw : Written x b s) (hs : s.written = anchor) (hcursor : cursor ≤ x.length) :
    ∃ s', Written x b s' ∧ s'.written = x.length ∧
      unpackFrom x.length s (compressFrom x table anchor cursor) = .ok s' := by
  induction hn : x.length - cursor using Nat.strong_induction_on
    generalizing table anchor cursor s with
  | _ n ih =>
  subst hn
  rw [compressFrom]
  split
  swap
  · rw [← hs]
    exact unpackFrom_emitLastLiterals hw hx
  rename_i hroom
  have htable' : ∀ k p, Function.update table (hashSequence (slice x cursor 4)) (some cursor) k =
      some p → p < cursor + 1 := fun k p hp => by
    rw [Function.update_apply] at hp
    split at hp
    · have := Option.some.inj hp
      omega
    · exact (htable k p hp).trans (Nat.lt_succ_self _)
  simp only
  cases hacc : accepted x table cursor with
  | none => exact ih _ (by omega) (by omega) htable' hw hs (by omega) rfl
  | some candidate =>
    obtain ⟨hhead, hdist, hsame⟩ := accepted_eq_some hacc
    have hlt := htable _ _ hhead
    have hle := le_matchEnd x (candidate + 4) (cursor + 4)
    have hend : matchEnd x (candidate + 4) (cursor + 4) ≤ x.length := matchEnd_le hroom
    simp only
    generalize hdef : matchEnd x (candidate + 4) (cursor + 4) = end_ at hle hend ⊢
    -- What is matched repeats what is at the candidate, in the first four bytes and after them.
    have hmatch : ∀ k, cursor ≤ k → k < cursor + (end_ - cursor) →
        x[k]? = x[k - (cursor - candidate)]? := fun k hk hk' => by
      by_cases h4 : k < cursor + 4
      · obtain ⟨j, rfl⟩ := Nat.exists_eq_add_of_le hk
        rw [← getElem?_slice (by omega : j < 4), ← hsame, getElem?_slice (by omega)]
        congr 1
        omega
      · have hrest : x[k]? = x[k - (cursor + 4 - (candidate + 4))]? :=
          matchEnd_matches (by omega) (by omega) (by omega)
        rwa [Nat.add_sub_add_right] at hrest
    obtain ⟨s', hw', hs', hread⟩ := unpackFrom_emitSequence hw hb hx (by omega : s.written ≤ cursor)
      (by omega : 0 < cursor - candidate) (by omega) hdist (by omega : 4 ≤ end_ - cursor) (by omega)
      hmatch (compressFrom x (refresh x end_ (end_ - 2) (Function.update table
        (hashSequence (slice x cursor 4)) (some cursor))) end_ end_)
    rw [hs] at hread
    rw [hread]
    exact ih _ (by omega) le_rfl (refresh_lt fun k p hp => (htable' k p hp).trans_le (by omega)) hw'
      (by omega) hend rfl

/-! ### The round trip -/

/-- The header is read back. -/
theorem readHeader_dzImage (hne : x ≠ []) (hmax : x.length ≤ maxKernelSize) :
    unpackedSize (dzImage x) = .ok x.length ∧
      readInt (dzImage x) 16 4 = .ok (crc32 x).toNat ∧
      (dzImage x).drop headerSize = compress x := by
  have hlen : (dzImage x).length = 24 + (compress x).length := by
    simp only [dzImage, length_append, length_leBytes, length_cons, length_nil,
      show magic.length = 8 from rfl]
  have hsize : slice (dzImage x) 8 8 = leBytes 8 x.length := rfl
  have hsum : slice (dzImage x) 16 4 = leBytes 4 (crc32 x).toNat := rfl
  have hpos : x.length ≠ 0 := by rwa [ne_eq, length_eq_zero_iff]
  have h64 : x.length < 256 ^ 8 := hmax.trans_lt (by decide)
  refine ⟨?_, ?_, rfl⟩
  · have hheader : ¬ ((dzImage x).length < headerSize ∨ slice (dzImage x) 0 8 ≠ magic ∨
        slice (dzImage x) 20 4 ≠ [0, 0, 0, 0]) := by
      rintro (h | h | h)
      · rw [hlen, headerSize] at h
        omega
      · exact h rfl
      · exact h rfl
    have hread : readInt (dzImage x) 8 8 = .ok x.length := by
      rw [readInt, if_pos (by omega), hsize, leNat_leBytes h64]
    rw [unpackedSize, if_neg hheader, hread]
    exact if_neg (by omega)
  · rw [readInt, if_pos (by omega), hsum, leNat_leBytes (crc32 x).toNat_lt]

/-- **The round trip**: unpacking the image of a kernel writes the kernel at the beginning of the
buffer, and nothing else. -/
theorem unpack_dzImage (hne : x ≠ []) (hmax : x.length ≤ maxKernelSize) (hb : x.length ≤ b.length) :
    ∃ reports, unpack (dzImage x) b = .ok (x.length, x ++ b.drop x.length, reports) := by
  obtain ⟨hsize, hsum, hdrop⟩ := readHeader_dzImage hne hmax
  have hx : x.length < 2 ^ 64 := hmax.trans_lt (by decide)
  have hstart : Written x b ⟨b, 0, 0, [0]⟩ := ⟨by simp, Nat.zero_le _⟩
  have htable : ∀ k p, (fun _ => none : Heads) k = some p → p < 0 := by simp
  obtain ⟨s, hw, hs, hread⟩ :=
    unpackFrom_compressFrom hb hx le_rfl htable hstart rfl (Nat.zero_le _)
  have hout : s.output = x ++ b.drop x.length := by
    rw [hw.output_eq, hs, take_length]
  refine ⟨if s.lastProgress ≠ 100 then s.reports ++ [100] else s.reports, ?_⟩
  simp only [unpack, hsize, hsum, hdrop, compress, hread, bind, Except.bind, if_neg hb.not_gt,
    hs, hout, take_left, ne_eq, not_true_eq_false, if_false]

/-- A kernel with a repetition. -/
theorem unpack_dzImage_sample :
    ∃ reports, unpack (dzImage (List.replicate 40 7)) (List.replicate 50 0) =
      .ok (40, List.replicate 40 7 ++ (List.replicate 50 0).drop 40, reports) :=
  unpack_dzImage (x := List.replicate 40 7) (b := List.replicate 50 0) (by decide) (by decide)
    (by decide)

end Compress

end ImagineOS.DzImage
