import ImagineOS.Checked
import ImagineOS.Digest
import Mathlib.Data.List.GetD

/-!
# Accounts: password hashing

The kernel hashes passwords with its own SHA-256. A message is hashed block by block: each block is
copied into a buffer of zeros, with the octet that ends the message and the length of the message if
they belong there. The keyed digest copies its message into a buffer too, which holds 68 octets of
it: what key derivation passes is never longer.
-/

namespace ImagineOS.Accounts

open Checked Digest
open Digest.Sha256 (Word Words)

/-! ### SHA-256 -/

def sha256Initial : Words where
  a := 0x6a09e667
  b := 0xbb67ae85
  c := 0x3c6ef372
  d := 0xa54ff53a
  e := 0x510e527f
  f := 0x9b05688c
  g := 0x1f83d9ab
  h := 0x5be0cd19

def sha256K : List Word := [
  0x428a2f98, 0x71374491, 0xb5c0fbcf, 0xe9b5dba5, 0x3956c25b, 0x59f111f1, 0x923f82a4, 0xab1c5ed5,
  0xd807aa98, 0x12835b01, 0x243185be, 0x550c7dc3, 0x72be5d74, 0x80deb1fe, 0x9bdc06a7, 0xc19bf174,
  0xe49b69c1, 0xefbe4786, 0x0fc19dc6, 0x240ca1cc, 0x2de92c6f, 0x4a7484aa, 0x5cb0a9dc, 0x76f988da,
  0x983e5152, 0xa831c66d, 0xb00327c8, 0xbf597fc7, 0xc6e00bf3, 0xd5a79147, 0x06ca6351, 0x14292967,
  0x27b70a85, 0x2e1b2138, 0x4d2c6dfc, 0x53380d13, 0x650a7354, 0x766a0abb, 0x81c2c92e, 0x92722c85,
  0xa2bfe8a1, 0xa81a664b, 0xc24b8b70, 0xc76c51a3, 0xd192e819, 0xd6990624, 0xf40e3585, 0x106aa070,
  0x19a4c116, 0x1e376c08, 0x2748774c, 0x34b0bcb5, 0x391c0cb3, 0x4ed8aa4a, 0x5b9cca4f, 0x682e6ff3,
  0x748f82ee, 0x78a5636f, 0x84c87814, 0x8cc70208, 0x90befffa, 0xa4506ceb, 0xbef9a3f7, 0xc67178f2]

/-- `words[index] = u32::from_be_bytes(..)` -/
def loadWord (block : List UInt8) (index : ℕ) (words : List Word) : Checked Empty (List Word) := do
  let start := index * 4
  let bytes ← slice block start (start + 4)
  setAt words index (BitVec.ofNat 32 (ofOctets bytes))

/-- One of the 48 words that are computed from others. -/
def expandWord (index' : ℕ) (words : List Word) : Checked Empty (List Word) := do
  let x ← index words (index' - 15)
  let y ← index words (index' - 2)
  let s0 := x.rotateRight 7 ^^^ x.rotateRight 18 ^^^ (x >>> 3)
  let s1 := y.rotateRight 17 ^^^ y.rotateRight 19 ^^^ (y >>> 10)
  let first ← index words (index' - 16)
  let second ← index words (index' - 7)
  setAt words index' (first + s0 + second + s1)

/-- One round of `compress`. -/
def compressRound (words : List Word) (index' : ℕ) (s : Words) : Checked Empty Words := do
  let sum1 := s.e.rotateRight 6 ^^^ s.e.rotateRight 11 ^^^ s.e.rotateRight 25
  let choice := (s.e &&& s.f) ^^^ (~~~ s.e &&& s.g)
  let k ← index sha256K index'
  let w ← index words index'
  let temp1 := s.h + sum1 + choice + k + w
  let sum0 := s.a.rotateRight 2 ^^^ s.a.rotateRight 13 ^^^ s.a.rotateRight 22
  let majority := (s.a &&& s.b) ^^^ (s.a &&& s.c) ^^^ (s.b &&& s.c)
  let temp2 := sum0 + majority
  return {
    h := s.g
    g := s.f
    f := s.e
    e := s.d + temp1
    d := s.c
    c := s.b
    b := s.a
    a := temp1 + temp2 }

def compress (state : Words) (block : List UInt8) : Checked Empty Words := do
  let words ← each (loadWord block) (List.range' 0 16) (List.replicate 64 0)
  let words ← each expandWord (List.range' 16 48) words
  let values ← each (compressRound words) (List.range' 0 64) state
  return state.add values

/-- `if count != 0 { block[..count].copy_from_slice(&bytes[offset..offset + count]) }` -/
def putBytes (bytes : List UInt8) (offset count : ℕ) (block : List UInt8) :
    Checked Empty (List UInt8) :=
  if count ≠ 0 then do copyRange block 0 count (← slice bytes offset (offset + count))
  else return block

/-- `if offset + count == bytes.len() && count < block.len() { block[count] = 0x80 }` -/
def putEnd (bytes : List UInt8) (offset count : ℕ) (block : List UInt8) :
    Checked Empty (List UInt8) :=
  if offset + count = bytes.length ∧ count < block.length then setAt block count 0x80
  else return block

/-- `if offset + 64 == padded_length { block[56..64].copy_from_slice(..) }` -/
def putLength (bitLength paddedLength offset : ℕ) (block : List UInt8) :
    Checked Empty (List UInt8) :=
  if offset + 64 = paddedLength then copyRange block 56 64 (toOctets 8 bitLength)
  else return block

/-- The block at `offset`. -/
def fillBlock (bytes : List UInt8) (bitLength paddedLength offset : ℕ) :
    Checked Empty (List UInt8) := do
  let count := min (bytes.length - offset) 64
  let block ← putBytes bytes offset count (List.replicate 64 0)
  let block ← putEnd bytes offset count block
  putLength bitLength paddedLength offset block

/-- The loop of `sha256`. -/
def hashBlocks (bytes : List UInt8) (bitLength paddedLength offset : ℕ) (state : Words) :
    Checked Empty Words :=
  if offset < paddedLength then do
    let block ← fillBlock bytes bitLength paddedLength offset
    hashBlocks bytes bitLength paddedLength (offset + 64) (← compress state block)
  else return state
termination_by paddedLength - offset

/-- `sha256`. A length is less than `2 ^ 63`, so no sum of lengths overflows. -/
def sha256 (bytes : List UInt8) : Checked Empty (List UInt8) := do
  let bitLength := bytes.length * 8 % 2 ^ 64
  let paddedLength := (bytes.length + 9 + 63) / 64 * 64
  let state ← hashBlocks bytes bitLength paddedLength 0 sha256Initial
  return state.toList.flatMap fun word => toOctets 4 word.toNat

section Compress

variable {W : ℕ → Word} {block : List UInt8} {s : Words} {i j t : ℕ}

theorem sha256Initial_eq : sha256Initial = Sha256.initial := by decide +kernel

theorem sha256K_getElem? : ∀ t < 64, sha256K[t]? = some (Sha256.constant t) := by decide +kernel

/-- The array of words, the first `i` of which have been computed. -/
def filled (W : ℕ → Word) (i : ℕ) : List Word :=
  (List.range i).map W ++ List.replicate (64 - i) 0

theorem length_filled (h : i ≤ 64) : (filled W i).length = 64 := by
  rw [filled, List.length_append, List.length_map, List.length_range, List.length_replicate]
  omega

theorem filled_getElem? (h : j < i) : (filled W i)[j]? = some (W j) := by
  rw [filled, List.getElem?_append_left (by simpa using h), List.getElem?_map,
    List.getElem?_range h]
  rfl

theorem filled_set (h : i < 64) : (filled W i).set i (W i) = filled W (i + 1) := by
  have hrest : List.replicate (64 - i) (0 : Word) = 0 :: List.replicate (64 - (i + 1)) 0 := by
    rw [← List.replicate_succ]
    congr 1
    omega
  rw [filled, hrest, List.set_append_right _ _ (by simp), List.length_map, List.length_range,
    Nat.sub_self, List.set_cons_zero, filled, List.range_succ, List.map_append, List.append_assoc]
  rfl

theorem word_octetBits (block : List UInt8) (t : ℕ) :
    Sha256.word (octetBits block) t =
      BitVec.ofNat 32 (ofOctets (between block (t * 4) (t * 4 + 4))) := by
  have hdrop : (octetBits block).drop (32 * t) = octetBits (block.drop (t * 4)) := by
    rw [← octetBits_drop]
    congr 1
    omega
  rw [Sha256.word, hdrop, octetBits_take _ 4, ofBits_octetBits, between, Nat.add_sub_cancel_left]

theorem loadWord_eq (hlength : block.length = 64) (h : i < 16) :
    loadWord block i (filled (Sha256.schedule (octetBits block)) i) =
      .ok (filled (Sha256.schedule (octetBits block)) (i + 1)) := by
  have hword : Sha256.schedule (octetBits block) i =
      BitVec.ofNat 32 (ofOctets (between block (i * 4) (i * 4 + 4))) := by
    rw [Sha256.schedule, if_pos h, word_octetBits]
  rw [loadWord, slice_eq (by omega) (by omega), ok_bind, ← hword,
    setAt_eq (by rw [length_filled] <;> omega), filled_set (by omega)]

theorem expandWord_eq (hlow : 16 ≤ i) (h : i < 64) :
    expandWord i (filled (Sha256.schedule (octetBits block)) i) =
      .ok (filled (Sha256.schedule (octetBits block)) (i + 1)) := by
  have hword := Sha256.schedule.eq_def (octetBits block) i
  rw [if_neg (by omega)] at hword
  rw [expandWord, index_eq (filled_getElem? (by omega)), ok_bind,
    index_eq (filled_getElem? (by omega)), ok_bind, index_eq (filled_getElem? (by omega)), ok_bind,
    index_eq (filled_getElem? (by omega)), ok_bind, setAt_eq (by rw [length_filled] <;> omega),
    ← filled_set h, hword]
  congr 2
  -- The four terms of the sum stand in another order.
  change _ + Sha256.sigma0 _ + _ + Sha256.sigma1 _ = _
  ac_rfl

theorem compressRound_eq (h : t < 64) :
    compressRound (filled W 64) t s = .ok (Sha256.round (Sha256.constant t) (W t) s) := by
  rw [compressRound, index_eq (sha256K_getElem? t h), ok_bind, index_eq (filled_getElem? h),
    ok_bind]
  rfl

theorem words_add_comm (s u : Words) : s.add u = u.add s := by
  simp only [Sha256.Words.add, BitVec.add_comm]

/-- **A block is compressed as in the standard.** -/
theorem compress_eq (s : Words) (hlength : block.length = 64) :
    compress s block = .ok (Sha256.next s (octetBits block)) := by
  have hload : each (loadWord block) (List.range' 0 16) (List.replicate 64 0) =
      .ok (filled (Sha256.schedule (octetBits block)) 16) :=
    each_range' (f := filled _) fun i _ hi => loadWord_eq hlength (by omega)
  have hexpand : each expandWord (List.range' 16 48)
      (filled (Sha256.schedule (octetBits block)) 16) =
      .ok (filled (Sha256.schedule (octetBits block)) 64) :=
    each_range' (f := filled _) fun i hi hi' => expandWord_eq hi (by omega)
  have hrounds : each (compressRound (filled (Sha256.schedule (octetBits block)) 64))
      (List.range' 0 64) s = .ok (Sha256.rounds (octetBits block) s 64) :=
    each_range' (f := Sha256.rounds (octetBits block) s) fun i _ hi => compressRound_eq (by omega)
  rw [compress, hload, ok_bind, hexpand, ok_bind, hrounds, ok_bind, words_add_comm]
  rfl

end Compress

section Blocks

variable {bytes : List UInt8} {bitLength paddedLength offset j : ℕ}

/-- Octet `p` of the padded message. -/
def paddedAt (bytes : List UInt8) (bitLength paddedLength p : ℕ) : UInt8 :=
  if p < bytes.length then bytes.getD p 0
  else if p = bytes.length then 0x80
  else if paddedLength - 8 ≤ p then (toOctets 8 bitLength).getD (p - (paddedLength - 8)) 0
  else 0

/-- The block with what there is of the message. -/
def contents (bytes : List UInt8) (offset : ℕ) : List UInt8 :=
  (bytes.drop offset).take 64 ++ List.replicate (64 - min (bytes.length - offset) 64) 0

theorem length_contents : (contents bytes offset).length = 64 := by
  rw [contents, List.length_append, List.length_take, List.length_drop, List.length_replicate]
  omega

theorem contents_getElem? (h : j < 64) :
    (contents bytes offset)[j]? =
      some (if offset + j < bytes.length then bytes.getD (offset + j) 0 else 0) := by
  rw [contents, List.getElem?_append, List.length_take, List.length_drop]
  split
  · rename_i hj
    rw [List.getElem?_take_of_lt h, List.getElem?_drop, if_pos (by omega),
      List.getElem?_eq_getElem (by omega), List.getD_eq_getElem _ _ (by omega)]
  · rename_i hj
    rw [List.getElem?_replicate, if_pos (by omega), if_neg (by omega)]

theorem putBytes_eq :
    putBytes bytes offset (min (bytes.length - offset) 64) (List.replicate 64 0) =
      .ok (contents bytes offset) := by
  rw [putBytes]
  split
  · rename_i hcount
    have hbetween : between bytes offset (offset + min (bytes.length - offset) 64) =
        (bytes.drop offset).take 64 :=
      List.take_eq_take_iff.mpr (by rw [List.length_drop]; omega)
    rw [slice_eq (by omega) (by omega), ok_bind, hbetween,
      copyRange_eq (Nat.zero_le _) (by rw [List.length_replicate]; omega)
        (by rw [List.length_take, List.length_drop]; omega),
      List.take_zero, List.nil_append, List.drop_replicate, contents]
  · rename_i hcount
    have hnil : (bytes.drop offset).take 64 = [] := by
      rw [List.drop_eq_nil_of_le (by omega), List.take_nil]
    rw [contents, hnil, show min (bytes.length - offset) 64 = 0 by omega]
    rfl

/-- The block after the octet that ends the message was stored, if it belongs there. -/
def ended (bytes : List UInt8) (offset : ℕ) : List UInt8 :=
  let count := min (bytes.length - offset) 64
  if offset + count = bytes.length ∧ count < 64 then (contents bytes offset).set count 0x80
  else contents bytes offset

theorem length_ended : (ended bytes offset).length = 64 := by
  rw [ended]
  split
  · rw [List.length_set, length_contents]
  · exact length_contents

theorem ended_getElem? (h : j < 64) :
    (ended bytes offset)[j]? = some (if offset + j < bytes.length then bytes.getD (offset + j) 0
      else if offset + j = bytes.length then 0x80 else 0) := by
  rw [ended]
  split
  · rename_i hend
    rw [List.getElem?_set, length_contents]
    split
    · rename_i hj
      rw [if_pos (by omega), if_neg (by omega), if_pos (by omega)]
    · rename_i hj
      rw [contents_getElem? h]
      split
      · rfl
      · rw [if_neg (by omega)]
  · rename_i hend
    rw [contents_getElem? h]
    split
    · rfl
    · rw [if_neg (by omega)]

theorem putEnd_eq :
    putEnd bytes offset (min (bytes.length - offset) 64) (contents bytes offset) =
      .ok (ended bytes offset) := by
  rw [putEnd, ended, length_contents]
  split
  · rename_i hend
    rw [setAt_eq (by rw [length_contents]; exact hend.2)]
  · rfl

theorem eq_map_range {l : List UInt8} {f : ℕ → UInt8} (hlength : l.length = 64)
    (h : ∀ j < 64, l[j]? = some (f j)) : l = (List.range 64).map f := by
  refine List.ext_getElem? fun j => ?_
  by_cases hj : j < 64
  · rw [h j hj, List.getElem?_map, List.getElem?_range hj]
    rfl
  · rw [List.getElem?_eq_none (by omega), List.getElem?_eq_none (by simp; omega)]

/-- **The block at `offset`** is that part of the padded message. -/
theorem fillBlock_eq (hpadded : bytes.length + 9 ≤ paddedLength) (hblocks : 64 ∣ paddedLength)
    (hblock : 64 ∣ offset) (hoffset : offset < paddedLength) :
    fillBlock bytes bitLength paddedLength offset =
      .ok ((List.range 64).map fun j => paddedAt bytes bitLength paddedLength (offset + j)) := by
  have hlast : offset + 64 = paddedLength ∨ offset + 128 ≤ paddedLength := by omega
  -- Off the last eight octets the buffer holds the message, the octet that ends it and zeros.
  have hplain {j : ℕ} (hj : offset + j < paddedLength - 8) :
      paddedAt bytes bitLength paddedLength (offset + j) =
        if offset + j < bytes.length then bytes.getD (offset + j) 0
        else if offset + j = bytes.length then 0x80 else 0 := by
    rw [paddedAt, if_neg (c := paddedLength - 8 ≤ offset + j) (by omega)]
  simp only [fillBlock]
  rw [putBytes_eq, ok_bind, putEnd_eq, ok_bind, putLength]
  split
  · rename_i hend
    rw [copyRange_eq (by omega) (by rw [length_ended]) (length_toOctets 8 _)]
    have hnone : (ended bytes offset).drop 64 = [] := List.drop_eq_nil_of_le (by rw [length_ended])
    rw [hnone, List.append_nil]
    refine congrArg Except.ok (eq_map_range ?_ fun j hj => ?_)
    · rw [List.length_append, List.length_take, length_ended, length_toOctets]
      rfl
    · rw [List.getElem?_append, List.length_take, length_ended]
      split
      · rename_i hfront
        rw [List.getElem?_take_of_lt (by omega), ended_getElem? hj, hplain (by omega)]
      · rename_i hback
        rw [paddedAt, if_neg (by omega), if_neg (by omega), if_pos (by omega),
          List.getD_eq_getElem?_getD, show offset + j - (paddedLength - 8) = j - min 56 64 by omega,
          List.getElem?_eq_getElem (by rw [length_toOctets]; omega)]
        rfl
  · rename_i hend
    refine congrArg Except.ok (eq_map_range length_ended fun j hj => ?_)
    rw [ended_getElem? hj, hplain (by omega)]

/-- `padded_length` -/
def paddedSize (length : ℕ) : ℕ := (length + 9 + 63) / 64 * 64

/-- The padded message. -/
def padded (bytes : List UInt8) : List UInt8 :=
  (List.range (paddedSize bytes.length)).map
    (paddedAt bytes (bytes.length * 8 % 2 ^ 64) (paddedSize bytes.length))

theorem paddedSize_spec (length : ℕ) :
    length + 9 ≤ paddedSize length ∧ paddedSize length < length + 73 ∧ 64 ∣ paddedSize length := by
  unfold paddedSize
  refine ⟨?_, ?_, Nat.dvd_mul_left 64 _⟩ <;> omega

theorem length_padded : (padded bytes).length = paddedSize bytes.length := by
  rw [padded, List.length_map, List.length_range]

theorem padded_eq : padded bytes = bytes ++ ([0x80] ++
    (List.replicate (paddedSize bytes.length - (bytes.length + 9)) 0 ++
      toOctets 8 (bytes.length * 8 % 2 ^ 64))) := by
  obtain ⟨hle, -, -⟩ := paddedSize_spec bytes.length
  refine List.ext_getElem (by rw [length_padded]; simp; omega) fun p h₁ h₂ => ?_
  rw [length_padded] at h₁
  simp only [padded, List.getElem_map, List.getElem_range, paddedAt]
  rw [List.getElem_append]
  split
  · rename_i hp
    rw [List.getD_eq_getElem _ _ hp]
  · rename_i hp
    split
    · rename_i hend
      rw [List.getElem_append_left (by rw [List.length_singleton]; omega), List.getElem_singleton]
    · rename_i hend
      rw [List.getElem_append_right (by rw [List.length_singleton]; omega), List.getElem_append]
      simp only [List.length_singleton, List.length_replicate]
      split
      · rename_i hlength
        rw [dif_neg (by omega), List.getD_eq_getElem _ _ (by rw [length_toOctets]; omega)]
        congr 1
        omega
      · rename_i hlength
        rw [dif_pos (by omega), List.getElem_replicate]

/-- **The padded message** is that of the standard. -/
theorem octetBits_padded : octetBits (padded bytes) = Sha256.pad (octetBits bytes) := by
  have hend : octetBits [0x80] = [true] ++ List.replicate 7 false := by decide
  have hzeros : 7 + 8 * (paddedSize bytes.length - (bytes.length + 9)) =
      Sha256.zeros (8 * bytes.length) := by
    unfold paddedSize Sha256.zeros
    omega
  have hlength : toBits 64 (bytes.length * 8 % 2 ^ 64) = toBits 64 (8 * bytes.length) := by
    rw [toBits_mod, Nat.mul_comm]
  rw [padded_eq, octetBits_append, octetBits_append, octetBits_append, hend,
    octetBits_replicate_zero, octetBits_toOctets, hlength, Sha256.pad, length_octetBits, ← hzeros,
    ← List.replicate_append_replicate]
  simp only [List.append_assoc]

theorem blockAt_padded {i : ℕ} (h : 64 * i < paddedSize bytes.length) :
    Sha256.blockAt (Sha256.pad (octetBits bytes)) i =
      octetBits ((List.range 64).map fun j =>
        paddedAt bytes (bytes.length * 8 % 2 ^ 64) (paddedSize bytes.length) (64 * i + j)) := by
  obtain ⟨-, -, hblocks⟩ := paddedSize_spec bytes.length
  have hdrop : (octetBits (padded bytes)).drop (512 * i) =
      octetBits ((padded bytes).drop (64 * i)) := by
    rw [← octetBits_drop]
    congr 1
    omega
  rw [← octetBits_padded, Sha256.blockAt, hdrop, octetBits_take _ 64]
  refine congrArg octetBits (eq_map_range ?_ fun j hj => ?_)
  · rw [List.length_take, List.length_drop, length_padded]
    omega
  · rw [List.getElem?_take_of_lt hj, List.getElem?_drop, padded, List.getElem?_map,
      List.getElem?_range (by omega)]
    rfl

/-- The loop, from block `i`. -/
theorem hashBlocks_eq {i n : ℕ} (h : 64 * (i + n) = paddedSize bytes.length) :
    hashBlocks bytes (bytes.length * 8 % 2 ^ 64) (paddedSize bytes.length) (64 * i)
      (Sha256.intermediate (Sha256.pad (octetBits bytes)) i) =
      .ok (Sha256.intermediate (Sha256.pad (octetBits bytes)) (i + n)) := by
  obtain ⟨hle, -, hblocks⟩ := paddedSize_spec bytes.length
  induction n generalizing i with
  | zero =>
    rw [hashBlocks, if_neg (by omega)]
    rfl
  | succ n ih =>
    rw [hashBlocks, if_pos (by omega), fillBlock_eq hle hblocks (Nat.dvd_mul_right 64 i) (by omega),
      ok_bind, compress_eq _ (by rw [List.length_map, List.length_range]), ok_bind,
      ← blockAt_padded (by omega)]
    have hnext := ih (i := i + 1) (by omega)
    rw [show i + (n + 1) = i + 1 + n by omega, ← hnext]
    rfl

end Blocks

section Messages

variable {message : List UInt8}

theorem groupOctets_toBits (s : Words) :
    groupOctets (s.toList.flatMap fun x => toBits 32 x.toNat) =
      s.toList.flatMap fun x => toOctets 4 x.toNat := by
  have hbits : (s.toList.flatMap fun x => toBits 32 x.toNat) =
      octetBits (s.toList.flatMap fun x => toOctets 4 x.toNat) := by
    simp only [Sha256.Words.toList, List.flatMap_cons, List.flatMap_nil, octetBits_append,
      octetBits_toOctets, octetBits_nil]
  rw [hbits, groupOctets_octetBits]

/-- **Every message** has the digest of the standard. -/
theorem sha256_eq (message : List UInt8) : sha256 message = .ok (Sha256.digest message) := by
  obtain ⟨-, -, n, hn⟩ := paddedSize_spec message.length
  have hblocks : (Sha256.pad (octetBits message)).length / 512 = n := by
    rw [← octetBits_padded, length_octetBits, length_padded, hn]
    omega
  have hloop : hashBlocks message (message.length * 8 % 2 ^ 64) (paddedSize message.length) 0
      Sha256.initial = .ok (Sha256.intermediate (Sha256.pad (octetBits message)) (0 + n)) :=
    hashBlocks_eq (i := 0) (by omega)
  simp only [sha256]
  rw [← paddedSize, sha256Initial_eq, hloop, Nat.zero_add, ok_bind, Sha256.digest, Sha256.hash,
    hblocks, groupOctets_toBits]
  rfl

theorem length_digest : (Sha256.digest message).length = 32 := by
  rw [Sha256.digest, Sha256.hash, groupOctets_toBits]
  simp [Sha256.Words.toList]

end Messages

/-! ### Keyed digests and derived keys -/

/-- `inner[index] = normalized_key[index] ^ value` -/
def xorKey (key : List UInt8) (value : UInt8) (index' : ℕ) (buffer : List UInt8) :
    Checked Empty (List UInt8) := do
  setAt buffer index' ((← index key index') ^^^ value)

/-- The `normalized_key` of `hmac_sha256` -/
def normalizeKey (key : List UInt8) : Checked Empty (List UInt8) :=
  let normalizedKey := List.replicate 64 0
  if key.length > normalizedKey.length then do copyRange normalizedKey 0 32 (← sha256 key)
  else copyRange normalizedKey 0 key.length key

def hmacSha256 (key message : List UInt8) : Checked Empty (List UInt8) := do
  let normalizedKey ← normalizeKey key
  let inner ← each (xorKey normalizedKey 0x36) (List.range' 0 64) (List.replicate 132 0)
  let outer ← each (xorKey normalizedKey 0x5c) (List.range' 0 64) (List.replicate 96 0)
  let inner ← copyRange inner 64 (64 + message.length) message
  let hashed ← slice inner 0 (64 + message.length)
  let innerHash ← sha256 hashed
  let outer ← copyRange outer 64 96 innerHash
  sha256 outer

/-- The loop of `pbkdf2_sha256`, with `u` and `result`. -/
def pbkdf2Loop (password : List UInt8) :
    ℕ → List UInt8 × List UInt8 → Checked Empty (List UInt8 × List UInt8)
  | 0, s => return s
  | n + 1, (u, result) => do
    let u ← hmacSha256 password u
    pbkdf2Loop password n (u, result.zipWith (· ^^^ ·) u)

def pbkdf2Sha256 (password salt : List UInt8) (iterations : ℕ) :
    Checked Empty (Option (List UInt8)) :=
  if 64 < salt.length ∨ iterations = 0 then return none
  else do
    let block ← copyRange (List.replicate 68 0) 0 salt.length salt
    let block ← setAt block (salt.length + 3) 1
    let message ← slice block 0 (salt.length + 4)
    let u ← hmacSha256 password message
    let (_, result) ← pbkdf2Loop password (iterations - 1) (u, u)
    return some result

section Keyed

variable {key buffer message password salt : List UInt8} {value : UInt8} {i iterations : ℕ}

/-- A buffer, the first `i` octets of which are those of the key. -/
def keyed (key buffer : List UInt8) (value : UInt8) (i : ℕ) : List UInt8 :=
  (key.take i).map (· ^^^ value) ++ buffer.drop i

theorem xorKey_eq (hkey : i < key.length) (hbuffer : key.length ≤ buffer.length) :
    xorKey key value i (keyed key buffer value i) = .ok (keyed key buffer value (i + 1)) := by
  have hlength : ((key.take i).map (· ^^^ value)).length = i := by
    rw [List.length_map, List.length_take]
    omega
  have hrest : buffer.drop i = buffer[i] :: buffer.drop (i + 1) := List.drop_eq_getElem_cons _
  have htake : key.take (i + 1) = key.take i ++ [key[i]] := List.take_succ_eq_append_getElem hkey
  rw [xorKey, index_eq (List.getElem?_eq_getElem hkey), ok_bind,
    setAt_eq (by rw [keyed, List.length_append, hlength, List.length_drop]; omega), keyed, keyed,
    List.set_append_right _ _ (by rw [hlength]), hlength, Nat.sub_self, hrest, List.set_cons_zero,
    htake, List.map_append, List.append_assoc]
  rfl

theorem each_xorKey (hkey : key.length = 64) (hbuffer : 64 ≤ buffer.length) :
    each (xorKey key value) (List.range' 0 64) buffer =
      .ok (key.map (· ^^^ value) ++ buffer.drop 64) := by
  have hloop : each (xorKey key value) (List.range' 0 64) (keyed key buffer value 0) =
      .ok (keyed key buffer value (0 + 64)) :=
    each_range' (f := keyed key buffer value) fun i _ hi => xorKey_eq (by omega) (by omega)
  have hall : key.take 64 = key := List.take_of_length_le (by omega)
  rw [keyed, List.take_zero, List.map_nil, List.nil_append, List.drop_zero, keyed, Nat.zero_add,
    hall] at hloop
  exact hloop

theorem length_blockKey : (blockKey Sha256.digest 64 key).length = 64 := by
  simp only [blockKey, List.length_append, List.length_replicate]
  split
  · rw [length_digest]
  · omega

theorem normalizeKey_eq (key : List UInt8) :
    normalizeKey key = .ok (blockKey Sha256.digest 64 key) := by
  simp only [normalizeKey, List.length_replicate, blockKey]
  split
  · rename_i hlong
    rw [sha256_eq, ok_bind, copyRange_eq (by omega) (by rw [List.length_replicate]; omega)
      length_digest, length_digest]
    rfl
  · rename_i hshort
    rw [copyRange_eq (by omega) (by rw [List.length_replicate]; omega) rfl, List.drop_replicate]
    rfl

theorem length_xorKey :
    ((blockKey Sha256.digest 64 key).map (· ^^^ value)).length = 64 := by
  rw [List.length_map, length_blockKey]

/-- **Messages of at most 68 octets** have the keyed digest of the standard. Others do not fit. -/
theorem hmacSha256_eq (key message : List UInt8) :
    hmacSha256 key message =
      if message.length ≤ 68 then .ok (hmac Sha256.digest 64 key message) else Checked.panic := by
  rw [hmacSha256, normalizeKey_eq, ok_bind,
    each_xorKey length_blockKey (by rw [List.length_replicate]; omega), ok_bind,
    each_xorKey length_blockKey (by rw [List.length_replicate]; omega), ok_bind]
  split
  · rename_i hfits
    rw [copyRange_eq (by omega)
      (by rw [List.length_append, length_xorKey, List.length_drop, List.length_replicate]; omega)
      (by omega), ok_bind, List.take_left' length_xorKey,
      slice_eq (by omega) (by rw [List.length_append, List.length_append, length_xorKey]; omega),
      ok_bind, between_zero, List.take_left' (by rw [List.length_append, length_xorKey]), sha256_eq,
      ok_bind, copyRange_eq (by omega)
        (by rw [List.length_append, length_xorKey, List.length_drop, List.length_replicate])
        length_digest, ok_bind, List.take_left' length_xorKey, sha256_eq]
    have hnone : (List.map (· ^^^ 0x5c) (blockKey Sha256.digest 64 key) ++
        List.drop 64 (List.replicate 96 (0 : UInt8))).drop 96 = [] := by
      refine List.drop_eq_nil_of_le ?_
      rw [List.length_append, length_xorKey, List.length_drop, List.length_replicate]
    rw [hnone, List.append_nil, hmac]
  · rename_i hlong
    have hpanic : ¬ (64 ≤ 64 + message.length ∧ 64 + message.length ≤
        (List.map (· ^^^ 0x36) (blockKey Sha256.digest 64 key) ++
          List.drop 64 (List.replicate 132 (0 : UInt8))).length ∧
        message.length = 64 + message.length - 64) := by
      rw [List.length_append, length_xorKey, List.length_drop, List.length_replicate]
      omega
    rw [copyRange, if_neg hpanic]
    rfl

theorem saltBlock (hsalt : salt.length ≤ 64) :
    between (List.set (salt ++ List.replicate (68 - salt.length) 0) (salt.length + 3) 1) 0
      (salt.length + 4) = salt ++ toOctets 4 1 := by
  have hrest : List.replicate (68 - salt.length) (0 : UInt8) =
      [0, 0, 0, 0] ++ List.replicate (64 - salt.length) 0 := by
    rw [show 68 - salt.length = 4 + (64 - salt.length) by omega, ← List.replicate_append_replicate]
    rfl
  rw [List.set_append_right _ _ (by omega), Nat.add_sub_cancel_left, hrest, between_zero,
    List.take_length_add_append]
  rfl

theorem pbkdf2Loop_eq (password salt : List UInt8) (i j n : ℕ) :
    pbkdf2Loop password n (iterate (hmac Sha256.digest 64) password salt i j,
      chain (hmac Sha256.digest 64) password salt i j) =
      .ok (iterate (hmac Sha256.digest 64) password salt i (j + n),
        chain (hmac Sha256.digest 64) password salt i (j + n)) := by
  induction n generalizing j with
  | zero => rfl
  | succ n ih =>
    have hlength : (iterate (hmac Sha256.digest 64) password salt i j).length ≤ 68 := by
      cases j <;> simp only [iterate, hmac, length_digest] <;> omega
    rw [pbkdf2Loop, hmacSha256_eq, if_pos hlength, ok_bind, show j + (n + 1) = j + 1 + n by omega,
      ← ih]
    rfl

theorem length_chain (password salt : List UInt8) (i n : ℕ) :
    (chain (hmac Sha256.digest 64) password salt i n).length = 32 := by
  induction n with
  | zero => rw [chain, iterate, hmac, length_digest]
  | succ n ih => rw [chain, List.length_zipWith, ih, iterate, hmac, length_digest, Nat.min_self]

/-- **Derived keys** are those of the standard. -/
theorem pbkdf2Sha256_eq (password : List UInt8) (hsalt : salt.length ≤ 64)
    (hiterations : 1 ≤ iterations) :
    pbkdf2Sha256 password salt iterations =
      .ok (some (pbkdf2 (hmac Sha256.digest 64) 32 password salt iterations 32)) := by
  have hmessage : (salt ++ toOctets 4 1).length ≤ 68 := by
    rw [List.length_append, length_toOctets]
    omega
  have hloop := pbkdf2Loop_eq password salt 1 0 (iterations - 1)
  have hlength : (chain (hmac Sha256.digest 64) password salt 1 (iterations - 1)).length = 32 :=
    length_chain password salt 1 _
  rw [pbkdf2Sha256, if_neg (by omega), copyRange_eq (by omega)
    (by rw [List.length_replicate]; omega) rfl, ok_bind, List.take_zero, List.nil_append,
    List.drop_replicate, setAt_eq (by rw [List.length_append, List.length_replicate]; omega),
    ok_bind, slice_eq (by omega)
      (by rw [List.length_set, List.length_append, List.length_replicate]; omega), ok_bind,
    saltBlock hsalt, hmacSha256_eq, if_pos hmessage, ok_bind]
  rw [Nat.zero_add, iterate, chain, iterate] at hloop
  rw [hloop, ok_bind, pbkdf2, List.range_one, List.flatMap_singleton,
    List.take_of_length_le (by rw [hlength])]
  rfl

end Keyed

/-- **Password hashing equals the standards**, but for keyed digests of messages that are too long
for the buffer. -/
theorem equals_standards :
    (∀ message, sha256 message = .ok (Sha256.digest message)) ∧
    (∀ key message, message.length ≤ 68 →
      hmacSha256 key message = .ok (hmac Sha256.digest 64 key message)) ∧
    (∀ key message, 68 < message.length → hmacSha256 key message = Checked.panic) ∧
    ∀ password salt iterations, salt.length ≤ 64 → 1 ≤ iterations →
      pbkdf2Sha256 password salt iterations =
        .ok (some (pbkdf2 (hmac Sha256.digest 64) 32 password salt iterations 32)) := by
  refine ⟨sha256_eq, fun key message hfits => ?_, fun key message hlong => ?_,
    fun password salt iterations hsalt hiterations => pbkdf2Sha256_eq password hsalt hiterations⟩
  · rw [hmacSha256_eq, if_pos hfits]
  · rw [hmacSha256_eq, if_neg (Nat.not_le.mpr hlong)]

/-- A password that is longer than a block, and a salt of the greatest length. -/
theorem equals_standards_long :
    pbkdf2Sha256 (List.replicate 65 112) (List.replicate 64 115) 2 =
      .ok (some (pbkdf2 (hmac Sha256.digest 64) 32 (List.replicate 65 112) (List.replicate 64 115)
        2 32)) :=
  equals_standards.2.2.2 _ _ _ (by rw [List.length_replicate]) (by omega)

/-- A message of 69 octets has a keyed digest, but not here. -/
theorem hmac_too_long :
    ¬ ∀ key message, hmacSha256 key message = .ok (hmac Sha256.digest 64 key message) := by
  intro h
  have hpanic := h [] (List.replicate 69 0)
  rw [hmacSha256_eq, if_neg (by rw [List.length_replicate]; omega)] at hpanic
  cases hpanic

end ImagineOS.Accounts
