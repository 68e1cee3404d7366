import ImagineOS.Bytes
import Mathlib.Data.LawfulXor.Basic

/-!
# CRC-32 detects a change of one byte

The checksum is a shift register of 32 bits. A step of it moves the register down by one bit and
adds the polynomial when the bit that falls out is set. The polynomial has its top bit set, which
the shift leaves clear: so the new top bit tells whether the polynomial was added, and a step can
be undone. Then no two states of the register meet while it reads the same bytes, and two inputs
that differ in one byte have different checksums.
-/

namespace ImagineOS

/-! ### Little-endian integers -/

theorem leNat_injective {as bs : List UInt8} (hlen : as.length = bs.length)
    (h : leNat as = leNat bs) : as = bs := by
  induction as generalizing bs with
  | nil => exact (List.length_eq_zero_iff.mp hlen.symm).symm
  | cons a as ih =>
    cases bs with
    | nil => cases hlen
    | cons b bs =>
      have ha : a.toNat < 256 := a.toNat_lt
      have hb : b.toNat < 256 := b.toNat_lt
      simp only [leNat] at h
      have hhead : a.toNat = b.toNat := by omega
      have htail : leNat as = leNat bs := by omega
      rw [UInt8.toNat_inj.mp hhead, ih (Nat.succ.inj hlen) htail]

/-! ### The shift register -/

theorem toNat_crc32Bit (crc : UInt32) :
    (crc32Bit crc).toNat = crc.toNat / 2 ^^^ if crc.toNat % 2 = 1 then 0xedb88320 else 0 := by
  have hlow : (crc &&& 1).toNat = crc.toNat % 2 := by
    rw [UInt32.toNat_and]
    exact Nat.and_one_is_mod _
  rw [crc32Bit, UInt32.toNat_xor, UInt32.toNat_shiftRight]
  rcases Nat.mod_two_eq_zero_or_one crc.toNat with h | h
  · have hbit : crc &&& 1 = 0 := UInt32.toNat_inj.mp (hlow.trans h)
    rw [hbit, if_neg (by omega)]
    simp [Nat.shiftRight_eq_div_pow]
  · have hbit : crc &&& 1 = 1 := UInt32.toNat_inj.mp (hlow.trans h)
    rw [hbit, if_pos h]
    simp [Nat.shiftRight_eq_div_pow]

theorem testBit_crc32Bit (crc : UInt32) :
    (crc32Bit crc).toNat.testBit 31 = decide (crc.toNat % 2 = 1) := by
  have hlt : crc.toNat / 2 < 2 ^ 31 := by
    have := crc.toNat_lt
    omega
  rw [toNat_crc32Bit, Nat.testBit_xor, Nat.testBit_lt_two_pow hlt, Bool.false_xor]
  split
  · rename_i h
    rw [decide_eq_true h]
    decide
  · rename_i h
    rw [decide_eq_false h]
    exact Nat.zero_testBit 31

/-- **A step of the register can be undone.** -/
theorem crc32Bit_injective : Function.Injective crc32Bit := by
  intro a b h
  have htop := congrArg (fun c => c.toNat.testBit 31) h
  simp only [testBit_crc32Bit, decide_eq_decide] at htop
  have hrest := congrArg UInt32.toNat h
  simp only [toNat_crc32Bit, htop] at hrest
  have hshift : a.toNat / 2 = b.toNat / 2 := (xor_left_involutive _).injective hrest
  refine UInt32.toNat_inj.mp ?_
  rcases Nat.mod_two_eq_zero_or_one b.toNat with hb | hb <;> omega

theorem repeat_injective {α : Type} {f : α → α} (hf : Function.Injective f) (n : ℕ) :
    Function.Injective (Nat.repeat f n) := by
  induction n with
  | zero => exact fun a b h => h
  | succ n ih => exact fun a b h => ih (hf h)

theorem crc32Byte_eq_iff {crc crc' : UInt32} {byte byte' : UInt8} :
    crc32Byte crc byte = crc32Byte crc' byte' ↔
      crc ^^^ byte.toUInt32 = crc' ^^^ byte'.toUInt32 :=
  (repeat_injective crc32Bit_injective 8).eq_iff

/-- **States that differ stay different** while the same bytes are read. -/
theorem crc32Update_injective (bytes : List UInt8) :
    Function.Injective fun crc => crc32Update crc bytes := by
  induction bytes with
  | nil => exact fun a b h => h
  | cons byte bytes ih =>
    intro a b h
    have hbyte : crc32Byte a byte = crc32Byte b byte := ih h
    exact UInt32.xor_left_inj _ |>.mp (crc32Byte_eq_iff.mp hbyte)

theorem crc32Update_append (crc : UInt32) (bytes rest : List UInt8) :
    crc32Update crc (bytes ++ rest) = crc32Update (crc32Update crc bytes) rest :=
  List.foldl_append

/-! ### One byte -/

/-- **A change of one byte changes the checksum.** -/
theorem crc32_replace_iff (before after : List UInt8) {b b' : UInt8} :
    crc32 (before ++ b :: after) = crc32 (before ++ b' :: after) ↔ b = b' := by
  constructor
  · intro h
    have hupdate := UInt32.not_inj.mp h
    rw [crc32Update_append, crc32Update_append] at hupdate
    have hbyte := crc32Byte_eq_iff.mp (crc32Update_injective after hupdate)
    have hxor : b.toUInt32 = b'.toUInt32 := (UInt32.xor_right_inj _).mp hbyte
    exact UInt8.toNat_inj.mp (by simpa using congrArg UInt32.toNat hxor)
  · rintro rfl
    rfl

namespace Sector

/-- A slice that contains byte `i`, cut there. -/
theorem slice_split (s : Sector) {off len i : ℕ} (h : i < len) :
    s.slice off len =
      s.slice off i ++ s.byte (off + i) :: s.slice (off + i + 1) (len - i - 1) := by
  have hlen : len = i + (1 + (len - i - 1)) := by omega
  conv_lhs => rw [hlen]
  rw [slice_append, slice_append]
  rfl

theorem crc32_slice_iff {s t : Sector} (off : ℕ) {len i : ℕ} (hi : i < len)
    (h : ∀ j, j ≠ off + i → t.byte j = s.byte j) :
    crc32 (t.slice off len) = crc32 (s.slice off len) ↔ t.byte (off + i) = s.byte (off + i) := by
  have hbefore : t.slice off i = s.slice off i := slice_congr fun j hj => h _ (by omega)
  have hafter : t.slice (off + i + 1) (len - i - 1) = s.slice (off + i + 1) (len - i - 1) :=
    slice_congr fun j _ => h _ (by omega)
  rw [slice_split t hi, slice_split s hi, hbefore, hafter]
  exact crc32_replace_iff _ _

end Sector

end ImagineOS
