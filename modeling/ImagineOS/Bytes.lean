import Mathlib.Data.List.Basic
import Mathlib.Tactic.Ring

/-!
# Bytes, sectors and checksums

The kernel reads and writes 512-byte sectors, lays out fixed-width little-endian integers in them
with `copy_from_slice`, keeps bitmaps in them, and protects them with CRC-32.
-/

namespace ImagineOS

open List

/-! ### Little-endian integers -/

/-- `to_le_bytes` of an integer of `w` bytes. -/
def leBytes : ℕ → ℕ → List UInt8
  | 0, _ => []
  | w + 1, n => UInt8.ofNat (n % 256) :: leBytes w (n / 256)

/-- `from_le_bytes`. -/
def leNat : List UInt8 → ℕ
  | [] => 0
  | b :: bs => b.toNat + 256 * leNat bs

@[simp] theorem length_leBytes (w n : ℕ) : (leBytes w n).length = w := by
  induction w generalizing n with
  | zero => rfl
  | succ w ih => simp [leBytes, ih]

theorem leNat_leBytes {w n : ℕ} (h : n < 256 ^ w) : leNat (leBytes w n) = n := by
  induction w generalizing n with
  | zero => simp at h; simp [leBytes, leNat, h]
  | succ w ih =>
    have hlt : n / 256 < 256 ^ w := Nat.div_lt_of_lt_mul (by rw [pow_succ] at h; omega)
    simp only [leBytes, leNat, ih hlt, UInt8.toNat_ofNat']
    omega

theorem leNat_lt (bs : List UInt8) : leNat bs < 256 ^ bs.length := by
  induction bs with
  | nil => simp [leNat]
  | cons b bs ih =>
    have hb : b.toNat < 256 := b.toNat_lt
    simp only [leNat, length_cons, pow_succ]
    omega

/-! ### Sectors -/

def sectorSize : ℕ := 512

/-- One sector of the device. -/
abbrev Sector : Type := Fin 512 → UInt8

/-- The sector of zeros. -/
def zeroSector : Sector := fun _ => 0

namespace Sector

/-- Byte `i` of a sector; zero past its end. -/
def byte (s : Sector) (i : ℕ) : UInt8 := if h : i < 512 then s ⟨i, h⟩ else 0

/-- `s[off..off + len]` -/
def slice (s : Sector) (off len : ℕ) : List UInt8 := (List.range len).map fun i => s.byte (off + i)

/-- `s[off..off + bs.len()].copy_from_slice(bs)` -/
def put (s : Sector) (off : ℕ) (bs : List UInt8) : Sector := fun i =>
  if off ≤ i.val ∧ i.val < off + bs.length then bs.getD (i.val - off) 0 else s i

@[simp] theorem length_slice (s : Sector) (off len : ℕ) : (s.slice off len).length = len := by
  simp [slice]

variable {i : ℕ}

theorem byte_of_lt (s : Sector) (h : i < 512) : s.byte i = s ⟨i, h⟩ := dif_pos h

@[simp] theorem byte_zeroSector (i : ℕ) : zeroSector.byte i = 0 := by
  simp [byte, zeroSector]

variable {off : ℕ} {bs : List UInt8}

theorem byte_put_of_mem (s : Sector) (h : off + bs.length ≤ 512)
    (hi : i < bs.length) : (s.put off bs).byte (off + i) = bs[i] := by
  rw [byte_of_lt _ (by omega), put, if_pos (by simp only; omega)]
  simp [hi]

@[simp] theorem byte_put_singleton (s : Sector) (b : UInt8) (h : off + 1 ≤ 512) :
    (s.put off [b]).byte off = b := by
  have hb := s.byte_put_of_mem (i := 0) (show off + [b].length ≤ 512 from h) (by simp)
  simpa using hb

theorem byte_put_of_not_mem (s : Sector)
    (h : i < off ∨ off + bs.length ≤ i) : (s.put off bs).byte i = s.byte i := by
  by_cases hi : i < 512
  · rw [byte_of_lt _ hi, byte_of_lt _ hi, put, if_neg (by simp only; omega)]
  · simp [byte, hi]

variable {len : ℕ}

/-- **Read after write.** -/
theorem slice_put_self (s : Sector) (hlen : bs.length = len)
    (h : off + len ≤ 512) : (s.put off bs).slice off len = bs := by
  refine ext_getElem (by simp [hlen]) fun i h₁ h₂ => ?_
  simp only [slice, getElem_map, getElem_range]
  exact byte_put_of_mem s (by omega) h₂

/-- **Read elsewhere.** -/
theorem slice_put_of_disjoint (s : Sector) {off' : ℕ}
    (h : off' + len ≤ off ∨ off + bs.length ≤ off') :
    (s.put off bs).slice off' len = s.slice off' len := by
  refine map_congr_left fun i hi => ?_
  have hi : i < len := mem_range.mp hi
  exact byte_put_of_not_mem s (by omega)

/-- Write a list of fields, each given by its offset and its bytes. -/
def putFields (s : Sector) : List (ℕ × List UInt8) → Sector
  | [] => s
  | f :: fields => (s.put f.1 f.2).putFields fields

theorem putFields_append (s : Sector) (fields fields' : List (ℕ × List UInt8)) :
    s.putFields (fields ++ fields') = (s.putFields fields).putFields fields' := by
  induction fields generalizing s with
  | nil => rfl
  | cons f fields ih => exact ih (s.put f.1 f.2)

theorem put_put (s : Sector) {as : List UInt8} (h : as.length = bs.length) :
    (s.put off as).put off bs = s.put off bs := by
  funext i
  simp only [put, h]
  split <;> rfl

theorem put_slice (s : Sector) (h : s.slice off bs.length = bs) :
    s.put off bs = s := by
  funext i
  rw [put]
  split
  · rename_i hi
    have hlt : i.val - off < bs.length := by omega
    have hbyte : s.byte (off + (i.val - off)) = bs[i.val - off] := by
      have hget := congrArg (fun l => l[i.val - off]?) h
      simpa [slice, hlt] using hget
    have hget : bs.getD (i.val - off) 0 = bs[i.val - off] := by simp [hlt]
    rw [hget, ← hbyte, Nat.add_sub_cancel' hi.1, byte_of_lt _ i.isLt]
  · rfl

variable {s : Sector} {fields : List (ℕ × List UInt8)}

theorem byte_putFields_of_not_mem (h : ∀ f ∈ fields, i < f.1 ∨ f.1 + f.2.length ≤ i) :
    (s.putFields fields).byte i = s.byte i := by
  induction fields generalizing s with
  | nil => rfl
  | cons f fields ih =>
    rw [putFields, ih fun g hg => h g (mem_cons_of_mem _ hg),
      byte_put_of_not_mem _ (h f mem_cons_self)]

/-- Fields that are moved by an offset. -/
def shiftFields (off : ℕ) (fields : List (ℕ × List UInt8)) : List (ℕ × List UInt8) :=
  fields.map fun f => (off + f.1, f.2)

/-- **Moved fields are read at the places that they were moved to.** -/
theorem byte_putFields_shift {t : Sector} (fields : List (ℕ × List UInt8))
    (hi : off + i < 512) (h : s.byte (off + i) = t.byte i) :
    (s.putFields (shiftFields off fields)).byte (off + i) = (t.putFields fields).byte i := by
  induction fields generalizing s t with
  | nil => exact h
  | cons f fields ih =>
    refine ih ?_
    rw [byte_of_lt _ hi, byte_of_lt _ (by omega)] at h ⊢
    simp only [put]
    split
    · rw [if_pos (by omega), show off + i - (off + f.1) = i - f.1 by omega]
    · rw [if_neg (by omega), h]

/-- Two fields that do not overlap. -/
def FieldsApart (f g : ℕ × List UInt8) : Prop :=
  f.1 + f.2.length ≤ g.1 ∨ g.1 + g.2.length ≤ f.1

theorem slice_putFields_of_disjoint (h : ∀ f ∈ fields, off + len ≤ f.1 ∨ f.1 + f.2.length ≤ off) :
    (s.putFields fields).slice off len = s.slice off len := by
  induction fields generalizing s with
  | nil => rfl
  | cons f fields ih =>
    rw [putFields, ih fun g hg => h g (mem_cons_of_mem _ hg),
      slice_put_of_disjoint _ (h f (by simp))]

/-- **Fields that do not overlap read back.** -/
theorem slice_putFields (hfields : fields.Pairwise FieldsApart) (h : (off, bs) ∈ fields)
    (hoff : off + bs.length ≤ 512) :
    (s.putFields fields).slice off bs.length = bs := by
  induction fields generalizing s with
  | nil => simp at h
  | cons f fields ih =>
    rw [pairwise_cons] at hfields
    rcases mem_cons.mp h with rfl | h
    · rw [putFields, slice_putFields_of_disjoint fun g hg => hfields.1 g hg,
        slice_put_self _ rfl hoff]
    · exact ih hfields.2 h

theorem pairwise_fieldsApart_mapIdx {α : Type} {f : α → List UInt8} {width : ℕ}
    (hf : ∀ a, (f a).length = width) (base : ℕ) (xs : List α) :
    (xs.mapIdx fun i a => (base + i * width, f a)).Pairwise FieldsApart := by
  rw [pairwise_iff_getElem]
  intro i j hi hj hij
  have hle : (i + 1) * width ≤ j * width := Nat.mul_le_mul_right _ hij
  simp only [getElem_mapIdx, FieldsApart, hf]
  rw [Nat.succ_mul] at hle
  omega

theorem slice_append (s : Sector) (off a b : ℕ) :
    s.slice off (a + b) = s.slice off a ++ s.slice (off + a) b := by
  simp only [slice, range_add, map_append, map_map]
  congr 1
  exact map_congr_left fun i _ => by simp [Nat.add_assoc]

theorem slice_of_append {a b : ℕ} {as : List UInt8}
    (h : s.slice off (a + b) = as ++ bs) (ha : as.length = a) :
    s.slice off a = as ∧ s.slice (off + a) b = bs := by
  rw [slice_append] at h
  exact append_inj h (by simp [ha])

theorem byte_of_slice (h : s.slice off len = bs) (hi : i < bs.length) : s.byte
    (off + i) = bs[i] := by
  subst h
  simp [slice]

theorem slice_congr {t : Sector} (h : ∀ i < len, s.byte (off + i) = t.byte (off + i)) :
    s.slice off len = t.slice off len :=
  map_congr_left fun i hi => h i (mem_range.mp hi)

theorem getElem_slice (s : Sector) (h : i < (s.slice off len).length) :
    (s.slice off len)[i] = s.byte (off + i) := by
  simp [slice]

end Sector

/-! ### Bitmaps -/

def setBit (bitmap : Sector) (bit : ℕ) (value : Bool) : Sector := fun i =>
  if i.val = bit / 8 then
    if value then bitmap i ||| (1 <<< UInt8.ofNat (bit % 8))
    else bitmap i &&& ~~~(1 <<< UInt8.ofNat (bit % 8))
  else bitmap i

/-- `bitmap[bit / 8] & (1 << (bit % 8)) != 0` -/
def getBit (bitmap : Sector) (bit : ℕ) : Bool :=
  bitmap.byte (bit / 8) &&& (1 <<< UInt8.ofNat (bit % 8)) != 0

private theorem mask_eq_testBit (b : UInt8) (j : Fin 8) :
    (b &&& (1 <<< UInt8.ofNat j) != 0) = b.toNat.testBit j := by
  have key : ∀ b : Fin 256, ∀ j : Fin 8,
      (UInt8.ofNat b &&& (1 <<< UInt8.ofNat j) != 0) = (b : ℕ).testBit j := by decide +kernel
  simpa using key ⟨b.toNat, b.toNat_lt⟩ j

private theorem mask_set (b : UInt8) (i j : Fin 8) :
    ((b ||| (1 <<< UInt8.ofNat i)) &&& (1 <<< UInt8.ofNat j) != 0)
      = (decide (i = j) || (b &&& (1 <<< UInt8.ofNat j) != 0)) := by
  have hbit : ∀ i j : Fin 8, (1 <<< UInt8.ofNat i : UInt8).toNat.testBit j = decide (i = j) := by
    decide
  rw [mask_eq_testBit, mask_eq_testBit, UInt8.toNat_or, Nat.testBit_or, hbit, Bool.or_comm]

private theorem mask_clear (b : UInt8) (i j : Fin 8) :
    ((b &&& ~~~(1 <<< UInt8.ofNat i)) &&& (1 <<< UInt8.ofNat j) != 0)
      = (!decide (i = j) && (b &&& (1 <<< UInt8.ofNat j) != 0)) := by
  have hbit : ∀ i j : Fin 8,
      (~~~(1 <<< UInt8.ofNat i) : UInt8).toNat.testBit j = !decide (i = j) := by
    decide
  rw [mask_eq_testBit, mask_eq_testBit, UInt8.toNat_and, Nat.testBit_and, hbit, Bool.and_comm]

theorem getBit_setBit (bitmap : Sector) {bit bit' : ℕ} (value : Bool) (h : bit < 4096) :
    getBit (setBit bitmap bit value) bit' = if bit' = bit then value else getBit bitmap bit' := by
  by_cases hbyte : bit' / 8 = bit / 8
  · have hlt : bit' / 8 < 512 := by omega
    rw [getBit, getBit, Sector.byte_of_lt _ hlt, Sector.byte_of_lt _ hlt, setBit, if_pos hbyte]
    have hi : bit % 8 < 8 := Nat.mod_lt _ (by norm_num)
    have hj : bit' % 8 < 8 := Nat.mod_lt _ (by norm_num)
    have hiff : (⟨bit % 8, hi⟩ : Fin 8) = ⟨bit' % 8, hj⟩ ↔ bit' = bit := by
      rw [Fin.mk.injEq]; omega
    cases value with
    | true =>
      rw [if_pos rfl, mask_set _ ⟨bit % 8, hi⟩ ⟨bit' % 8, hj⟩]
      by_cases he : bit' = bit <;> simp [hiff, he]
    | false =>
      rw [if_neg (by simp), mask_clear _ ⟨bit % 8, hi⟩ ⟨bit' % 8, hj⟩]
      by_cases he : bit' = bit <;> simp [hiff, he]
  · have hne : bit' ≠ bit := fun h => hbyte (by rw [h])
    rw [if_neg hne, getBit, getBit]
    by_cases hlt : bit' / 8 < 512
    · rw [Sector.byte_of_lt _ hlt, Sector.byte_of_lt _ hlt, setBit, if_neg hbyte]
    · simp [Sector.byte, hlt]

@[simp] theorem getBit_zeroSector (bit : ℕ) : getBit zeroSector bit = false := by
  simp [getBit]

/-! ### CRC-32 -/

/-- One bit of `crc32_update`. -/
def crc32Bit (crc : UInt32) : UInt32 := (crc >>> 1) ^^^ (0xedb88320 &&& (0 - (crc &&& 1)))

/-- One byte of `crc32_update`. -/
def crc32Byte (crc : UInt32) (byte : UInt8) : UInt32 :=
  Nat.repeat crc32Bit 8 (crc ^^^ byte.toUInt32)

def crc32Update (crc : UInt32) (bytes : List UInt8) : UInt32 := bytes.foldl crc32Byte crc

def crc32 (bytes : List UInt8) : UInt32 := ~~~crc32Update (~~~0) bytes

/-- The check value of CRC-32: the checksum of the ASCII digits `123456789`. -/
example : crc32 [0x31, 0x32, 0x33, 0x34, 0x35, 0x36, 0x37, 0x38, 0x39] = 0xcbf43926 := by
  decide +kernel

end ImagineOS
