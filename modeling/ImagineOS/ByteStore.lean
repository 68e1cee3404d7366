import Mathlib.Tactic.Ring

/-!
# Byte-addressed memory

A memory gives a byte for every address. Programs read and write little-endian words in it, fill
ranges and copy them. What they do elsewhere is nothing: `Agree` says that two memories have the
same bytes in a range, and each operation agrees with the memory before it on every range apart from
the one it writes.
-/

namespace ImagineOS

/-- The bytes of a memory. -/
abbrev ByteStore : Type := ℕ → UInt8

/-- Ranges, each with its start and length, that have no address in common. -/
def Apart (a n b k : ℕ) : Prop := a + n ≤ b ∨ b + k ≤ a

instance (a n b k : ℕ) : Decidable (Apart a n b k) := inferInstanceAs (Decidable (_ ∨ _))

theorem Apart.symm {a n b k : ℕ} (h : Apart a n b k) : Apart b k a n := h.elim Or.inr Or.inl

theorem Apart.mono {a n b k a' n' b' k' : ℕ} (h : Apart a n b k) (ha : a ≤ a')
    (han : a' + n' ≤ a + n) (hb : b ≤ b') (hbk : b' + k' ≤ b + k) : Apart a' n' b' k' := by
  rcases h with h | h
  · exact Or.inl (by omega)
  · exact Or.inr (by omega)

namespace ByteStore

variable {m m' m'' : ByteStore} {a n b k value : ℕ}

/-! ### Words -/

/-- The little-endian word of some bytes at an address. -/
def word (m : ByteStore) (a : ℕ) : ℕ → ℕ
  | 0 => 0
  | n + 1 => (m a).toNat + 256 * word m (a + 1) n

/-- A word is written at an address. -/
def setWord (m : ByteStore) (a n value : ℕ) : ByteStore := fun i =>
  if a ≤ i ∧ i < a + n then UInt8.ofNat (value / 256 ^ (i - a)) else m i

/-- The same bytes in a range. -/
def Agree (m m' : ByteStore) (a n : ℕ) : Prop := ∀ i, a ≤ i → i < a + n → m' i = m i

theorem Agree.refl (m : ByteStore) (a n : ℕ) : Agree m m a n := fun _ _ _ => rfl

theorem Agree.trans (h : Agree m m' a n) (h' : Agree m' m'' a n) : Agree m m'' a n :=
  fun i hi hin => (h' i hi hin).trans (h i hi hin)

theorem Agree.mono (h : Agree m m' a n) (ha : a ≤ b) (hn : b + k ≤ a + n) : Agree m m' b k :=
  fun i hi hin => h i (by omega) (by omega)

theorem Agree.word_eq (h : Agree m m' a n) : m'.word a n = m.word a n := by
  induction n generalizing a with
  | zero => rfl
  | succ n ih =>
    have hrest : Agree m m' (a + 1) n := h.mono (by omega) (by omega)
    rw [word, word, h a (Nat.le_refl a) (by omega), ih hrest]

theorem agree_setWord (m : ByteStore) (value : ℕ) (h : Apart a n b k) :
    Agree m (m.setWord b k value) a n := by
  intro i hi hin
  have hout : ¬ (b ≤ i ∧ i < b + k) := by
    rcases h with h | h <;> omega
  rw [setWord, if_neg hout]

theorem word_setWord (m : ByteStore) (h : value < 256 ^ n) :
    (m.setWord a n value).word a n = value := by
  induction n generalizing a value m with
  | zero => simp only [pow_zero, Nat.lt_one_iff] at h; rw [h]; rfl
  | succ n ih =>
    have hfirst : (m.setWord a (n + 1) value) a = UInt8.ofNat value := by
      simp [setWord]
    have hrest : Agree (m.setWord (a + 1) n (value / 256)) (m.setWord a (n + 1) value) (a + 1)
        n := by
      intro i hi hin
      have hpow : 256 ^ (i - a) = 256 * 256 ^ (i - (a + 1)) := by
        rw [show i - a = i - (a + 1) + 1 by omega, pow_succ, Nat.mul_comm]
      rw [setWord, setWord, if_pos (by omega), if_pos (by omega), hpow, Nat.div_div_eq_div_mul]
    have hlt : value / 256 < 256 ^ n := Nat.div_lt_of_lt_mul (by rw [pow_succ] at h; omega)
    rw [word, hfirst, hrest.word_eq, ih m hlt, UInt8.toNat_ofNat']
    omega

/-! ### Ranges -/

def memset (m : ByteStore) (a : ℕ) (value : UInt8) : ℕ → ByteStore
  | 0 => m
  | n + 1 => Function.update (memset m a value n) (a + n) value

def memcpy (m : ByteStore) (a b : ℕ) : ℕ → ByteStore
  | 0 => m
  | n + 1 => Function.update (memcpy m a b n) (a + n) (memcpy m a b n (b + n))

theorem memset_apply (m : ByteStore) (a : ℕ) (value : UInt8) (n i : ℕ) :
    m.memset a value n i = if a ≤ i ∧ i < a + n then value else m i := by
  induction n with
  | zero => rw [memset, if_neg (by omega)]
  | succ n ih =>
    by_cases hi : i = a + n
    · rw [memset, hi, Function.update_self, if_pos (by omega)]
    · have hiff : (a ≤ i ∧ i < a + (n + 1)) ↔ (a ≤ i ∧ i < a + n) := by omega
      rw [memset, Function.update_of_ne hi, ih, if_congr hiff rfl rfl]

theorem agree_memset (m : ByteStore) (value : UInt8) (h : Apart a n b k) :
    Agree m (m.memset b value k) a n := by
  intro i hi hin
  rw [memset_apply, if_neg (by rcases h with h | h <;> omega)]

theorem memcpy_apply (m : ByteStore) {n : ℕ} (h : Apart a n b n) (i : ℕ) :
    m.memcpy a b n i = if a ≤ i ∧ i < a + n then m (b + (i - a)) else m i := by
  induction n generalizing i with
  | zero => rw [memcpy, if_neg (by omega)]
  | succ n ih =>
    have h' : Apart a n b n := h.mono (by omega) (by omega) (by omega) (by omega)
    by_cases hi : i = a + n
    · have hout : ¬ (a ≤ b + n ∧ b + n < a + n) := by rcases h with h | h <;> omega
      rw [memcpy, hi, Function.update_self, ih h', if_neg hout, if_pos (by omega),
        Nat.add_sub_cancel_left]
    · have hiff : (a ≤ i ∧ i < a + (n + 1)) ↔ (a ≤ i ∧ i < a + n) := by omega
      rw [memcpy, Function.update_of_ne hi, ih h', if_congr hiff rfl rfl]

theorem agree_memcpy (m : ByteStore) {c : ℕ} (hcopy : Apart b k c k) (h : Apart a n b k) :
    Agree m (m.memcpy b c k) a n := by
  intro i hi hin
  rw [memcpy_apply m hcopy, if_neg (by rcases h with h | h <;> omega)]

/-- A range is filled: `ptr::write_bytes`. -/
def fill (m : ByteStore) (a n : ℕ) (value : UInt8) : ByteStore := fun i =>
  if a ≤ i ∧ i < a + n then value else m i

/-- Bytes are stored, one behind the other: `ptr::copy_nonoverlapping`. -/
def store (m : ByteStore) (a : ℕ) (bytes : List UInt8) : ByteStore := fun i =>
  if a ≤ i ∧ i < a + bytes.length then bytes.getD (i - a) 0 else m i

theorem word_fill_zero (m : ByteStore) (ha : a ≤ b) (hb : b + k ≤ a + n) :
    (m.fill a n 0).word b k = 0 := by
  induction k generalizing b with
  | zero => rfl
  | succ k ih =>
    have hbyte : m.fill a n 0 b = 0 := if_pos ⟨ha, by omega⟩
    rw [word, hbyte, ih (by omega) (by omega)]
    rfl

end ByteStore

end ImagineOS
