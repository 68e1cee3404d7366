import Mathlib.Data.List.Basic
import Mathlib.Data.List.Induction
import Mathlib.Tactic.Ring

/-!
# Digests and derived keys

What three standards define: the digest SHA-256 (FIPS 180-4), the keyed digest HMAC (RFC 2104) and
the key derivation function PBKDF2 (RFC 8018). A digest is defined for strings of bits, and the
other two for strings of octets, from any digest and any keyed digest.
-/

namespace ImagineOS.Digest

open List Nat

/-! ### Bits and octets -/

/-- `n` in `w` bits, the most significant one first. -/
def toBits : ℕ → ℕ → List Bool
  | 0, _ => []
  | w + 1, n => toBits w (n / 2) ++ [decide (n % 2 = 1)]

/-- The number that bits stand for. -/
def ofBits (bits : List Bool) : ℕ := bits.foldl (fun n b => 2 * n + b.toNat) 0

/-- `n` in `w` octets, the most significant one first. -/
def toOctets : ℕ → ℕ → List UInt8
  | 0, _ => []
  | w + 1, n => toOctets w (n / 256) ++ [UInt8.ofNat n]

/-- The number that octets stand for. -/
def ofOctets (octets : List UInt8) : ℕ := octets.foldl (fun n o => 256 * n + o.toNat) 0

/-- The bits of octets. -/
def octetBits (octets : List UInt8) : List Bool := octets.flatMap fun o => toBits 8 o.toNat

/-- Bits, eight by eight. -/
def groupOctets (bits : List Bool) : List UInt8 :=
  (List.range (bits.length / 8)).map fun i => UInt8.ofNat (ofBits ((bits.drop (8 * i)).take 8))

@[simp] theorem length_toBits (w n : ℕ) : (toBits w n).length = w := by
  induction w generalizing n with
  | zero => rfl
  | succ w ih => rw [toBits, length_append, ih, length_singleton]

@[simp] theorem length_toOctets (w n : ℕ) : (toOctets w n).length = w := by
  induction w generalizing n with
  | zero => rfl
  | succ w ih => rw [toOctets, length_append, ih, length_singleton]

theorem toBits_add (v w n : ℕ) : toBits (v + w) n = toBits v (n / 2 ^ w) ++ toBits w n := by
  induction w generalizing n with
  | zero => simp [toBits]
  | succ w ih =>
    rw [← Nat.add_assoc, toBits, ih, toBits, Nat.div_div_eq_div_mul, pow_succ', append_assoc]

theorem toBits_mod (w n : ℕ) : toBits w (n % 2 ^ w) = toBits w n := by
  induction w generalizing n with
  | zero => rfl
  | succ w ih =>
    have hhalf : n % 2 ^ (w + 1) / 2 = n / 2 % 2 ^ w := by
      rw [pow_succ', mod_mul_right_div_self]
    have hlast : n % 2 ^ (w + 1) % 2 = n % 2 := mod_mod_of_dvd n (Dvd.intro_left (2 ^ w) rfl)
    rw [toBits, hhalf, ih, hlast, toBits]

theorem toBits_zero (w : ℕ) : toBits w 0 = List.replicate w false := by
  induction w with
  | zero => rfl
  | succ w ih => rw [toBits, Nat.zero_div, ih, replicate_succ']; rfl

theorem ofBits_concat (bits : List Bool) (b : Bool) :
    ofBits (bits ++ [b]) = 2 * ofBits bits + b.toNat := by
  rw [ofBits, foldl_append]
  rfl

theorem ofBits_append_toBits (bits : List Bool) (w n : ℕ) :
    ofBits (bits ++ toBits w n) = 2 ^ w * ofBits bits + n % 2 ^ w := by
  induction w generalizing n with
  | zero => simp [toBits, mod_one]
  | succ w ih =>
    have hlast : (decide (n % 2 = 1)).toNat = n % 2 := by
      rcases mod_two_eq_zero_or_one n with h | h <;> simp [h]
    have hmod : n % 2 ^ (w + 1) = 2 * (n / 2 % 2 ^ w) + n % 2 := by
      rw [pow_succ', mod_mul, add_comm]
    rw [toBits, ← append_assoc, ofBits_concat, ih, hlast, hmod, pow_succ]
    ring

@[simp] theorem octetBits_nil : octetBits [] = [] := rfl

theorem octetBits_cons (o : UInt8) (l : List UInt8) :
    octetBits (o :: l) = toBits 8 o.toNat ++ octetBits l := rfl

theorem octetBits_append (l m : List UInt8) : octetBits (l ++ m) = octetBits l ++ octetBits m :=
  flatMap_append

theorem octetBits_replicate_zero (n : ℕ) :
    octetBits (List.replicate n 0) = List.replicate (8 * n) false := by
  induction n with
  | zero => rfl
  | succ n ih =>
    rw [replicate_succ, octetBits_cons, ih, UInt8.toNat_zero, toBits_zero,
      replicate_append_replicate]
    congr 1
    omega

@[simp] theorem length_octetBits (l : List UInt8) : (octetBits l).length = 8 * l.length := by
  induction l with
  | nil => rfl
  | cons o l ih =>
    rw [octetBits_cons, length_append, ih, length_toBits, length_cons]
    omega

theorem octetBits_drop (l : List UInt8) (n : ℕ) :
    (octetBits l).drop (8 * n) = octetBits (l.drop n) := by
  induction n generalizing l with
  | zero => rfl
  | succ n ih =>
    cases l with
    | nil => simp
    | cons o l =>
      rw [octetBits_cons, show 8 * (n + 1) = 8 + 8 * n by omega, ← drop_drop,
        drop_left' (length_toBits 8 _), ih, drop_succ_cons]

theorem octetBits_take (l : List UInt8) (n : ℕ) :
    (octetBits l).take (8 * n) = octetBits (l.take n) := by
  induction n generalizing l with
  | zero => rfl
  | succ n ih =>
    cases l with
    | nil => simp
    | cons o l =>
      rw [octetBits_cons, take_succ_cons, octetBits_cons, ← ih,
        show 8 * (n + 1) = (toBits 8 o.toNat).length + 8 * n by rw [length_toBits]; omega,
        take_length_add_append]

theorem octetBits_toOctets (w n : ℕ) : octetBits (toOctets w n) = toBits (8 * w) n := by
  induction w generalizing n with
  | zero => rfl
  | succ w ih =>
    have hlast : toBits 8 (UInt8.ofNat n).toNat = toBits 8 n := by
      rw [UInt8.toNat_ofNat']
      exact toBits_mod 8 n
    rw [toOctets, octetBits_append, ih, octetBits_cons, octetBits_nil, append_nil, hlast,
      mul_succ, toBits_add]
    rfl

theorem ofBits_octetBits (l : List UInt8) : ofBits (octetBits l) = ofOctets l := by
  induction l using List.reverseRecOn with
  | nil => rfl
  | append_singleton l o ih =>
    have ho : o.toNat % 2 ^ 8 = o.toNat := mod_eq_of_lt o.toNat_lt
    rw [octetBits_append, octetBits_cons, octetBits_nil, append_nil, ofBits_append_toBits, ih,
      ho, ofOctets, ofOctets, foldl_append]
    rfl

theorem groupOctets_octetBits (l : List UInt8) : groupOctets (octetBits l) = l := by
  refine ext_getElem (by simp [groupOctets]) fun i h₁ h₂ => ?_
  have hone : (l.drop i).take 1 = [l[i]] := by
    rw [drop_eq_getElem_cons h₂]
    rfl
  have hbits : ofBits (((octetBits l).drop (8 * i)).take 8) = l[i].toNat := by
    have htake := octetBits_take (l.drop i) 1
    rw [mul_one] at htake
    rw [octetBits_drop, htake, hone, ofBits_octetBits]
    simp [ofOctets]
  simp only [groupOctets, getElem_map, getElem_range]
  rw [hbits, UInt8.ofNat_toNat]

/-! ### SHA-256 -/

namespace Sha256

/-- A word of 32 bits. -/
abbrev Word : Type := BitVec 32

/-- Eight words: a hash value, or the working variables. -/
structure Words where
  a : Word
  b : Word
  c : Word
  d : Word
  e : Word
  f : Word
  g : Word
  h : Word
  deriving DecidableEq

/-- The eight words in order. -/
def Words.toList (s : Words) : List Word := [s.a, s.b, s.c, s.d, s.e, s.f, s.g, s.h]

/-- The sums of the eight words. -/
def Words.add (s t : Words) : Words :=
  ⟨s.a + t.a, s.b + t.b, s.c + t.c, s.d + t.d, s.e + t.e, s.f + t.f, s.g + t.g, s.h + t.h⟩

def rotr (n : ℕ) (x : Word) : Word := (x >>> n) ||| (x <<< (32 - n))

def ch (x y z : Word) : Word := (x &&& y) ^^^ (~~~ x &&& z)

def maj (x y z : Word) : Word := (x &&& y) ^^^ (x &&& z) ^^^ (y &&& z)

/-- `Σ₀` -/
def bigSigma0 (x : Word) : Word := rotr 2 x ^^^ rotr 13 x ^^^ rotr 22 x

/-- `Σ₁` -/
def bigSigma1 (x : Word) : Word := rotr 6 x ^^^ rotr 11 x ^^^ rotr 25 x

/-- `σ₀` -/
def sigma0 (x : Word) : Word := rotr 7 x ^^^ rotr 18 x ^^^ (x >>> 3)

/-- `σ₁` -/
def sigma1 (x : Word) : Word := rotr 17 x ^^^ rotr 19 x ^^^ (x >>> 10)

/-- The greatest number from `r` to `r + 2 ^ b - 1` whose `k`-th power is at most `n`, digit by
digit. -/
def rootFrom (k n : ℕ) : ℕ → ℕ → ℕ
  | 0, r => r
  | b + 1, r => rootFrom k n b (if (r + 2 ^ b) ^ k ≤ n then r + 2 ^ b else r)

/-- The first 32 bits of the fractional part of the `k`-th root of `p`. -/
def rootFraction (k p : ℕ) : Word := BitVec.ofNat 32 (rootFrom k (p * 2 ^ (32 * k)) 40 0)

/-- The first 64 primes. -/
def primes : List ℕ := [2, 3, 5, 7, 11, 13, 17, 19, 23, 29, 31, 37, 41, 43, 47, 53, 59, 61, 67, 71,
  73, 79, 83, 89, 97, 101, 103, 107, 109, 113, 127, 131, 137, 139, 149, 151, 157, 163, 167, 173,
  179, 181, 191, 193, 197, 199, 211, 223, 227, 229, 233, 239, 241, 251, 257, 263, 269, 271, 277,
  281, 283, 293, 307, 311]

/-- `K` -/
def constant (t : ℕ) : Word := rootFraction 3 (primes.getD t 0)

/-- `H⁽⁰⁾` -/
def initial : Words :=
  ⟨rootFraction 2 2, rootFraction 2 3, rootFraction 2 5, rootFraction 2 7, rootFraction 2 11,
    rootFraction 2 13, rootFraction 2 17, rootFraction 2 19⟩

/-- The least `k` with `l + 1 + k ≡ 448 (mod 512)`. -/
def zeros (l : ℕ) : ℕ := (448 + 512 - (l + 1) % 512) % 512

/-- The padded message. Its last 64 bits are the length, which is less than `2 ^ 64`. -/
def pad (message : List Bool) : List Bool :=
  message ++ [true] ++ List.replicate (zeros message.length) false ++ toBits 64 message.length

/-- Word `t` of a block. -/
def word (block : List Bool) (t : ℕ) : Word :=
  BitVec.ofNat 32 (ofBits ((block.drop (32 * t)).take 32))

/-- `W`, the message schedule. -/
def schedule (block : List Bool) (t : ℕ) : Word :=
  if t < 16 then word block t
  else sigma1 (schedule block (t - 2)) + schedule block (t - 7) + sigma0 (schedule block (t - 15)) +
    schedule block (t - 16)
termination_by t

/-- One round: `T₁`, `T₂` and the working variables. -/
def round (k w : Word) (s : Words) : Words :=
  let t₁ := s.h + bigSigma1 s.e + ch s.e s.f s.g + k + w
  let t₂ := bigSigma0 s.a + maj s.a s.b s.c
  ⟨t₁ + t₂, s.a, s.b, s.c, s.d + t₁, s.e, s.f, s.g⟩

/-- The working variables after `n` rounds. -/
def rounds (block : List Bool) (s : Words) : ℕ → Words
  | 0 => s
  | t + 1 => round (constant t) (schedule block t) (rounds block s t)

/-- The next intermediate hash value. -/
def next (s : Words) (block : List Bool) : Words := (rounds block s 64).add s

/-- Block `i` of a padded message. -/
def blockAt (padded : List Bool) (i : ℕ) : List Bool := (padded.drop (512 * i)).take 512

/-- The intermediate hash value after `n` blocks. -/
def intermediate (padded : List Bool) : ℕ → Words
  | 0 => initial
  | i + 1 => next (intermediate padded i) (blockAt padded i)

/-- **SHA-256** of a string of bits. -/
def hash (message : List Bool) : List Bool :=
  let padded := pad message
  (intermediate padded (padded.length / 512)).toList.flatMap fun x => toBits 32 x.toNat

/-- SHA-256 of a string of octets. -/
def digest (message : List UInt8) : List UInt8 := groupOctets (hash (octetBits message))

end Sha256

/-! ### Keyed digests and derived keys -/

section Keyed

variable (H : List UInt8 → List UInt8) (B : ℕ)

/-- The key of a keyed digest: the digest of a key longer than a block, and then zeros. -/
def blockKey (key : List UInt8) : List UInt8 :=
  let short := if B < key.length then H key else key
  short ++ List.replicate (B - short.length) 0

/-- **HMAC**, for a digest `H` whose blocks have `B` octets. -/
def hmac (key text : List UInt8) : List UInt8 :=
  H ((blockKey H B key).map (· ^^^ 0x5c) ++ H ((blockKey H B key).map (· ^^^ 0x36) ++ text))

variable (prf : List UInt8 → List UInt8 → List UInt8)

/-- `U₁`, `U₂` and so on, from index 0. -/
def iterate (password salt : List UInt8) (i : ℕ) : ℕ → List UInt8
  | 0 => prf password (salt ++ toOctets 4 i)
  | j + 1 => prf password (iterate password salt i j)

/-- `U₁ xor .. xor U_c`, for `c = n + 1`. -/
def chain (password salt : List UInt8) (i : ℕ) : ℕ → List UInt8
  | 0 => iterate prf password salt i 0
  | n + 1 => (chain password salt i n).zipWith (· ^^^ ·) (iterate prf password salt i (n + 1))

/-- **PBKDF2**, for a keyed digest of `hLen` octets: `T₁`, `T₂` and so on, up to `dkLen` octets. -/
def pbkdf2 (hLen : ℕ) (password salt : List UInt8) (c dkLen : ℕ) : List UInt8 :=
  ((List.range ((dkLen + hLen - 1) / hLen)).flatMap fun i =>
    chain prf password salt (i + 1) (c - 1)).take dkLen

end Keyed

end ImagineOS.Digest
