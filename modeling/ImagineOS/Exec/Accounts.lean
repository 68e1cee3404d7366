import ImagineOS.Bytes

/-!
# Processes: accounts

There are two accounts: `root`, whose password is fixed, and the one that `/etc/users.db` describes
if it is there. The user identifier of the latter is never that of `root`
(`authenticate_uid`).
-/

namespace ImagineOS.Exec

def accountNameSize : ℕ := 32

def databaseSize : ℕ := 100

def databaseMagic : List UInt8 := [73, 77, 85, 83, 69, 82, 48, 49]

def pbkdf2Iterations : ℕ := 10000

/-- `b"root"` -/
def rootName : List UInt8 := [114, 111, 111, 116]

/-- `Account`: the name up to its length. -/
structure Account where
  username : List UInt8
  uid : ℕ
  gid : ℕ
  administrator : Bool
  salt : List UInt8
  passwordHash : List UInt8
  deriving DecidableEq

/-- `Account::root` -/
def Account.root : Account where
  username := rootName
  uid := 0
  gid := 0
  administrator := true
  salt := List.replicate 16 0
  passwordHash := List.replicate 32 0

def constantTimeEq (left right : List UInt8) : Bool :=
  (left.zip right).foldl (fun difference b => difference ||| (b.1 ^^^ b.2)) 0 == 0

/-- `&bytes[start..stop]` -/
def field (bytes : List UInt8) (start stop : ℕ) : List UInt8 := (bytes.take stop).drop start

def decodeAccount (bytes : List UInt8) : Option Account :=
  if bytes.length ≠ databaseSize ∨ field bytes 0 8 ≠ databaseMagic then none
  else
    let usernameLength := (bytes.getD 8 0).toNat
    if usernameLength = 0 ∨ accountNameSize < usernameLength ∨ 1 < (bytes.getD 9 0).toNat then none
    else
      let uid := leNat (field bytes 12 16)
      let gid := leNat (field bytes 16 20)
      if uid < 1000 ∨ gid < 1000 then none
      else
        let username := field bytes 68 100
        if (username.drop usernameLength).any (· ≠ 0) then none
        else some {
          username := username.take usernameLength
          uid := uid
          gid := gid
          administrator := bytes.getD 9 0 ≠ 0
          salt := field bytes 20 36
          passwordHash := field bytes 36 68 }

section Authenticate

variable (pbkdf2 : List UInt8 → List UInt8 → ℕ → Option (List UInt8))

/-- `Account::verify_password`, with the key derivation function of the kernel. -/
def Account.verifyPassword (account : Account) (password : List UInt8) : Bool :=
  if account.uid = 0 then password == rootName
  else (pbkdf2 password account.salt pbkdf2Iterations).any (constantTimeEq · account.passwordHash)

/-- `authenticate`, when `database` is what `/etc/users.db` holds. -/
def authenticate (database : Option (List UInt8)) (username password : List UInt8) :
    Option Account :=
  if username = rootName then if password = rootName then some .root else none
  else do
    let account ← decodeAccount (← database)
    if username = account.username ∧ account.verifyPassword pbkdf2 password then some account
    else none

variable {pbkdf2} {database : Option (List UInt8)} {username password : List UInt8}
  {account : Account}

theorem decodeAccount_uid {bytes : List UInt8} (h : decodeAccount bytes = some account) :
    1000 ≤ account.uid := by
  simp only [decodeAccount] at h
  split_ifs at h with h₁ h₂ h₃ h₄
  obtain rfl := Option.some.inj h
  exact Nat.le_of_not_lt fun hlt => h₃ (Or.inl hlt)

/-- **Only `root` has the user identifier 0.** -/
theorem authenticate_uid (h : authenticate pbkdf2 database username password = some account) :
    account.uid = 0 ↔ username = rootName := by
  rw [authenticate] at h
  split at h
  · rename_i hroot
    split at h
    · obtain rfl := Option.some.inj h
      exact iff_of_true rfl hroot
    · exact absurd h (by simp)
  · rename_i hroot
    refine iff_of_false (fun hzero => ?_) hroot
    obtain ⟨bytes, -, h⟩ := Option.bind_eq_some_iff.mp h
    obtain ⟨decoded, hdecode, h⟩ := Option.bind_eq_some_iff.mp h
    split at h
    · obtain rfl := Option.some.inj h
      have := decodeAccount_uid hdecode
      omega
    · exact absurd h (by simp)

end Authenticate

end ImagineOS.Exec
