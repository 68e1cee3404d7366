import ImagineOS.Accounts.Crypto
import ImagineOS.Installer.Configure

/-!
# Accounts: the account database

The installer stores the account of a user in a record of 100 octets, and the kernel decodes the
record when that user logs in. The two agree about the record: what is decoded is the user of the
configuration, and the passwords that are accepted are those with the same derived key.
-/

namespace ImagineOS.Accounts

open Checked Digest Option
open Exec (Account accountNameSize constantTimeEq databaseMagic databaseSize decodeAccount field
  pbkdf2Iterations)
open Installer (InstallConfig makeDatabase validateInstallConfig validate_user)

/-! ### Keys -/

/-- `crypto::pbkdf2_sha256`, which does not panic. -/
def passwordKey (password salt : List UInt8) (iterations : ℕ) : Option (List UInt8) :=
  match pbkdf2Sha256 password salt iterations with
  | .ok key => key
  | .error _ => none

/-- `crypto::pbkdf2_sha256`, for the salt of a record. -/
def passwordHash (password : List UInt8) (salt : Vector UInt8 16) (iterations : ℕ) :
    Option (Vector UInt8 32) := do
  let key ← passwordKey password salt.toList iterations
  if h : key.toArray.size = 32 then some ⟨key.toArray, h⟩ else none

/-- The key of a password, as the standard has it. -/
def standardKey (password salt : List UInt8) (iterations : ℕ) : List UInt8 :=
  pbkdf2 (hmac Sha256.digest 64) 32 password salt iterations 32

section Keys

variable {password salt left right : List UInt8} {iterations : ℕ}

theorem passwordKey_eq (hsalt : salt.length ≤ 64) (hiterations : 1 ≤ iterations) :
    passwordKey password salt iterations = some (standardKey password salt iterations) := by
  rw [passwordKey, pbkdf2Sha256_eq password hsalt hiterations]
  rfl

theorem length_standardKey : (standardKey password salt iterations).length = 32 := by
  rw [standardKey, pbkdf2, List.range_one, List.flatMap_singleton, List.length_take, length_chain]
  rfl

theorem passwordHash_eq (password : List UInt8) (salt : Vector UInt8 16)
    (hiterations : 1 ≤ iterations) :
    ∃ hash : Vector UInt8 32, passwordHash password salt iterations = some hash ∧
      hash.toList = standardKey password salt.toList iterations := by
  have hsalt : salt.toList.length ≤ 64 := by
    rw [Vector.length_toList]
    omega
  refine ⟨⟨(standardKey password salt.toList iterations).toArray, length_standardKey⟩, ?_, rfl⟩
  rw [passwordHash, passwordKey_eq hsalt hiterations, bind_eq_bind, bind_some,
    dif_pos (c := (standardKey password salt.toList iterations).toArray.size = 32)
      length_standardKey]

theorem foldl_difference (pairs : List (UInt8 × UInt8)) (difference : UInt8) :
    pairs.foldl (fun difference b => difference ||| (b.1 ^^^ b.2)) difference = 0 ↔
      difference = 0 ∧ ∀ b ∈ pairs, b.1 = b.2 := by
  induction pairs generalizing difference with
  | nil => simp
  | cons b pairs ih =>
    rw [List.foldl_cons, ih, UInt8.or_eq_zero_iff, UInt8.xor_eq_zero_iff, List.forall_mem_cons,
      and_assoc]

/-- **Keys of one length** are compared octet by octet. -/
theorem constantTimeEq_iff (hlength : left.length = right.length) :
    constantTimeEq left right = true ↔ left = right := by
  rw [constantTimeEq, beq_iff_eq, foldl_difference]
  constructor
  · rintro ⟨-, h⟩
    refine List.ext_getElem hlength fun i h₁ h₂ => ?_
    have hmem : (left[i], right[i]) ∈ left.zip right :=
      List.mem_iff_getElem.mpr ⟨i, by rw [List.length_zip]; omega, List.getElem_zip⟩
    exact h _ hmem
  · rintro rfl
    refine ⟨rfl, fun b hb => ?_⟩
    obtain ⟨i, hi, hget⟩ := List.mem_iff_getElem.mp hb
    rw [← hget, List.getElem_zip]

end Keys

/-! ### The record -/

/-- The record of a user. -/
def record (config : InstallConfig) (salt : Vector UInt8 16) (hash : Vector UInt8 32) :
    List UInt8 :=
  databaseMagic ++ [config.usernameLength, config.administrator, 0, 0] ++ leBytes 4 1000 ++
    leBytes 4 1000 ++ salt.toList ++ hash.toList ++ config.usernameBytes ++
    List.replicate (32 - config.usernameBytes.length) 0

/-- The writes of `make_database` -/
def fillDatabase (config : InstallConfig) (salt : Vector UInt8 16) (hash : Vector UInt8 32) :
    Checked Empty (List UInt8) := do
  let output ← copyRange (List.replicate databaseSize 0) 0 8 databaseMagic
  let output ← setAt output 8 config.usernameLength
  let output ← setAt output 9 config.administrator
  let output ← copyRange output 12 16 (leBytes 4 1000)
  let output ← copyRange output 16 20 (leBytes 4 1000)
  let output ← copyRange output 20 36 salt.toList
  let output ← copyRange output 36 68 hash.toList
  let username ← slice config.username.toList 0 config.usernameLength.toNat
  copyRange output 68 (68 + config.usernameLength.toNat) username

/-- `decode_account`, with its accesses. -/
def decodeAccountChecked (bytes : List UInt8) : Checked Empty (Option Account) :=
  if bytes.length ≠ databaseSize then return none
  else do
    let magic ← slice bytes 0 8
    if magic ≠ databaseMagic then return none
    else
      let length ← index bytes 8
      let administrator ← index bytes 9
      let usernameLength := length.toNat
      if usernameLength = 0 ∨ accountNameSize < usernameLength ∨ 1 < administrator.toNat then
        return none
      else
        let uid ← slice bytes 12 16
        let gid ← slice bytes 16 20
        if leNat uid < 1000 ∨ leNat gid < 1000 then return none
        else
          let username ← slice bytes 68 100
          let padding ← slice username usernameLength accountNameSize
          if padding.any (· ≠ 0) then return none
          else
            let salt ← slice bytes 20 36
            let passwordHash ← slice bytes 36 68
            return some {
              username := username.take usernameLength
              uid := leNat uid
              gid := leNat gid
              administrator := administrator ≠ 0
              salt := salt
              passwordHash := passwordHash }

section Record

variable {config : InstallConfig} {salt : Vector UInt8 16} {hash : Vector UInt8 32}
  {a b c : List UInt8} {start stop : ℕ}

theorem copyRange_next {n m : ℕ} (ha : a.length = start) (hb : b.length = n) (hn : n ≤ m) :
    (copyRange (a ++ List.replicate m 0) start (start + n) b : Checked Empty (List UInt8)) =
      .ok (a ++ b ++ List.replicate (m - n) 0) := by
  rw [copyRange_eq (by omega) (by rw [List.length_append, List.length_replicate]; omega) (by omega),
    List.take_left' ha, ← ha, List.drop_length_add_append, List.drop_replicate]

theorem field_middle (ha : a.length = start) (hb : start + b.length = stop) :
    field (a ++ b ++ c) start stop = b := by
  rw [field, List.take_left' (by rw [List.length_append]; omega), List.drop_left' ha]

theorem between_eq_field (bytes : List UInt8) (start stop : ℕ) :
    between bytes start stop = field bytes start stop := by
  rw [between, field, List.drop_take]

theorem length_usernameBytes (h : validateInstallConfig config) (huser : config.addUser ≠ 0) :
    config.usernameBytes.length = config.usernameLength.toNat ∧
      0 < config.usernameLength.toNat ∧ config.usernameLength.toNat ≤ 32 ∧
      config.administrator.toNat ≤ 1 := by
  unfold validateInstallConfig at h
  split at h
  · cases h
  rename_i hlimits
  simp only at h
  split at h
  · cases h
  have hname := of_decide_eq_true h
  simp only [not_or, Nat.not_lt] at hname hlimits
  have hle : config.usernameLength.toNat ≤ 32 := hlimits.2.1
  have hlength : config.usernameBytes.length = config.usernameLength.toNat := by
    rw [InstallConfig.usernameBytes, List.length_take, Vector.length_toList]
    omega
  refine ⟨hlength, ?_, hle, Nat.le_of_not_lt hlimits.2.2.2.2⟩
  rw [← hlength]
  exact List.length_pos_iff.mpr hname.1

/-- **Where the fields of the record are.** -/
theorem fillDatabase_eq (h : config.usernameLength.toNat ≤ 32) :
    fillDatabase config salt hash = .ok (record config salt hash) := by
  have hlength : config.usernameBytes.length = config.usernameLength.toNat := by
    rw [InstallConfig.usernameBytes, List.length_take, Vector.length_toList]
    omega
  have hmagic : (copyRange (List.replicate databaseSize 0) 0 8 databaseMagic :
      Checked Empty (List UInt8)) = .ok (databaseMagic ++ List.replicate 92 0) :=
    @copyRange_next [] databaseMagic 0 8 100 rfl rfl (by omega)
  have hname : (databaseMagic ++ List.replicate 92 0).set 8 config.usernameLength =
      databaseMagic ++ (config.usernameLength :: List.replicate 91 0) := rfl
  have hadministrator : (databaseMagic ++ (config.usernameLength :: List.replicate 91 0)).set 9
      config.administrator = databaseMagic ++ [config.usernameLength, config.administrator, 0, 0] ++
        List.replicate 88 0 := rfl
  rw [fillDatabase, hmagic, ok_bind, setAt_eq (by decide), ok_bind, hname,
    setAt_eq (by rw [List.length_append, List.length_cons, List.length_replicate]; decide), ok_bind,
    hadministrator, @copyRange_next _ _ 12 4 88 rfl (length_leBytes 4 1000) (by omega), ok_bind,
    @copyRange_next _ _ 16 4 84 rfl (length_leBytes 4 1000) (by omega), ok_bind,
    @copyRange_next _ _ 20 16 80 rfl Vector.length_toList (by omega), ok_bind,
    @copyRange_next _ _ 36 32 64 (by simp [databaseMagic]) Vector.length_toList (by omega), ok_bind,
    slice_eq (Nat.zero_le _) (by rw [Vector.length_toList]; exact h), ok_bind, between_zero,
    ← InstallConfig.usernameBytes,
    @copyRange_next _ _ 68 _ 32 (by simp [databaseMagic]) hlength h, record, hlength]

theorem makeDatabase_eq (salt : Vector UInt8 16) (h : validateInstallConfig config)
    (huser : config.addUser ≠ 0) :
    ∃ hash : Vector UInt8 32,
      makeDatabase passwordHash (some salt) config = some (record config salt hash) ∧
      passwordHash config.passwordBytes salt pbkdf2Iterations = some hash ∧
      hash.toList = standardKey config.passwordBytes salt.toList pbkdf2Iterations := by
  obtain ⟨hash, hhash, hkey⟩ := @passwordHash_eq pbkdf2Iterations config.passwordBytes salt
    (by decide)
  refine ⟨hash, ?_, hhash, hkey⟩
  rw [makeDatabase, if_neg (by simp [h, huser]), bind_eq_bind, bind_some,
    bind_eq_bind, hhash, bind_some]
  rfl

/-- The account of a record. -/
def accountOf (config : InstallConfig) (salt : Vector UInt8 16) (hash : Vector UInt8 32) :
    Account where
  username := config.usernameBytes
  uid := 1000
  gid := 1000
  administrator := config.administrator ≠ 0
  salt := salt.toList
  passwordHash := hash.toList

/-- The octets of the record, up to the salt. -/
def recordHeader (config : InstallConfig) : List UInt8 :=
  databaseMagic ++ [config.usernameLength, config.administrator, 0, 0] ++ leBytes 4 1000 ++
    leBytes 4 1000

theorem field_record (h : record config salt hash = a ++ b ++ c) (ha : a.length = start)
    (hb : start + b.length = stop) : field (record config salt hash) start stop = b := by
  rw [h]
  exact field_middle ha hb

theorem decodeAccount_record (h : validateInstallConfig config) (huser : config.addUser ≠ 0) :
    decodeAccount (record config salt hash) = some (accountOf config salt hash) := by
  obtain ⟨hlength, hpos, hle, hadministrator⟩ := length_usernameBytes h huser
  have hpadding : config.usernameBytes.length +
      (List.replicate (32 - config.usernameBytes.length) (0 : UInt8)).length = 32 := by
    rw [List.length_replicate]
    omega
  have htotal : (record config salt hash).length = databaseSize := by
    simp only [record, List.length_append, Vector.length_toList, length_leBytes,
      List.length_replicate, List.length_cons, List.length_nil, databaseMagic, databaseSize]
    omega
  have hheader : record config salt hash = recordHeader config ++ salt.toList ++
      (hash.toList ++ config.usernameBytes ++
        List.replicate (32 - config.usernameBytes.length) 0) := by
    simp only [record, recordHeader, List.append_assoc]
  have hmagic : field (record config salt hash) 0 8 = databaseMagic := by
    rw [hheader]
    rfl
  have huid : field (record config salt hash) 12 16 = leBytes 4 1000 := by
    rw [hheader]
    rfl
  have hgid : field (record config salt hash) 16 20 = leBytes 4 1000 := by
    rw [hheader]
    rfl
  have hsalt : field (record config salt hash) 20 36 = salt.toList :=
    field_record hheader rfl (by rw [Vector.length_toList])
  have hhash : field (record config salt hash) 36 68 = hash.toList := by
    refine field_record (a := recordHeader config ++ salt.toList) (b := hash.toList)
      (c := config.usernameBytes ++ List.replicate (32 - config.usernameBytes.length) 0) ?_ ?_ ?_
    · simp only [hheader, List.append_assoc]
    · rw [List.length_append, Vector.length_toList]
      rfl
    · rw [Vector.length_toList]
  have hname : field (record config salt hash) 68 100 = config.usernameBytes ++
      List.replicate (32 - config.usernameBytes.length) 0 := by
    refine field_record (a := recordHeader config ++ salt.toList ++ hash.toList)
      (b := config.usernameBytes ++ List.replicate (32 - config.usernameBytes.length) 0) (c := [])
      ?_ ?_ ?_
    · simp only [hheader, List.append_assoc, List.append_nil]
    · rw [List.length_append, List.length_append, Vector.length_toList, Vector.length_toList]
      rfl
    · rw [List.length_append, hpadding]
  have hlengthByte : (record config salt hash).getD 8 0 = config.usernameLength := by
    rw [hheader]
    rfl
  have hadministratorByte : (record config salt hash).getD 9 0 = config.administrator := by
    rw [hheader]
    rfl
  have hid : leNat (leBytes 4 1000) = 1000 := leNat_leBytes (by decide)
  simp only [decodeAccount, hmagic, huid, hgid, hsalt, hhash, hname, hlengthByte,
    hadministratorByte, hid]
  rw [if_neg (by simp [htotal]), if_neg (by simp only [accountNameSize]; omega), if_neg (by omega),
    ← hlength, List.drop_left, if_neg (by simp), List.take_left]
  rfl

/-! ### Decoding -/

/-- **No access leaves the record**, whatever it holds. -/
theorem decodeAccountChecked_eq (bytes : List UInt8) :
    decodeAccountChecked bytes = .ok (decodeAccount bytes) := by
  rw [decodeAccountChecked, decodeAccount]
  split
  · rename_i hsize
    rw [if_pos (.inl hsize)]
    rfl
  · rename_i hsize
    have hlength : bytes.length = 100 := not_not.mp hsize
    have hslice {start stop : ℕ} (hle : start ≤ stop) (hstop : stop ≤ 100) :
        (slice bytes start stop : Checked Empty (List UInt8)) = .ok (field bytes start stop) := by
      rw [slice_eq hle (by omega), between_eq_field]
    have hindex {i : ℕ} (hi : i < 100) :
        (index bytes i : Checked Empty UInt8) = .ok (bytes.getD i 0) := by
      refine index_eq ?_
      rw [List.getElem?_eq_getElem (by omega), List.getD_eq_getElem _ _ (by omega)]
    rw [hslice (by omega) (by omega), ok_bind]
    split
    · rename_i hmagic
      rw [if_pos (.inr hmagic)]
      rfl
    · rename_i hmagic
      rw [hindex (by omega), ok_bind, hindex (by omega), ok_bind,
        if_neg (show ¬ (bytes.length ≠ databaseSize ∨ field bytes 0 8 ≠ databaseMagic) from
          not_or.mpr ⟨hsize, hmagic⟩)]
      dsimp only
      split
      · rfl
      · rename_i hlimits
        have hle : (bytes.getD 8 0).toNat ≤ accountNameSize := by omega
        rw [hslice (by omega) (by omega), ok_bind, hslice (by omega) (by omega), ok_bind]
        split
        · rfl
        · have hname : (field bytes 68 100).length = accountNameSize := by
            rw [field, List.length_drop, List.length_take, hlength]
            rfl
          rw [hslice (by omega) (by omega), ok_bind, slice_eq hle (by rw [hname]), ok_bind,
            ← hname, between_length]
          split
          · rfl
          · rw [hslice (by omega) (by omega), ok_bind, hslice (by omega) (by omega), ok_bind]
            rfl

theorem decodeAccount_username {bytes : List UInt8} {account : Account}
    (h : decodeAccount bytes = some account) :
    ∃ n, 0 < n ∧ 68 + n ≤ bytes.length ∧ account.username = between bytes 68 (68 + n) := by
  simp only [decodeAccount] at h
  split_ifs at h with hrecord hlimits hid hpadding
  obtain rfl := Option.some.inj h
  simp only [not_or, not_not, databaseSize, accountNameSize] at hrecord hlimits
  refine ⟨(bytes.getD 8 0).toNat, by omega, by omega, ?_⟩
  change (field bytes 68 100).take _ = _
  rw [field, List.drop_take, List.take_take, between, Nat.add_sub_cancel_left,
    Nat.min_eq_left (by omega)]

/-- **Passwords with the key of the stored one** are accepted. -/
theorem verifyPassword_iff (hhash : hash.toList =
    standardKey config.passwordBytes salt.toList pbkdf2Iterations) (password : List UInt8) :
    (accountOf config salt hash).verifyPassword passwordKey password = true ↔
      standardKey password salt.toList pbkdf2Iterations =
        standardKey config.passwordBytes salt.toList pbkdf2Iterations := by
  have hkey : passwordKey password salt.toList pbkdf2Iterations =
      some (standardKey password salt.toList pbkdf2Iterations) :=
    passwordKey_eq (by rw [Vector.length_toList]; omega) (by decide)
  rw [Account.verifyPassword, if_neg (by simp [accountOf])]
  change (passwordKey password salt.toList pbkdf2Iterations).any
    (constantTimeEq · hash.toList) = true ↔ _
  rw [hkey, hhash, any_some, constantTimeEq_iff]
  rw [length_standardKey, length_standardKey]

end Record

/-- **The round trip** of the account database, and what is decoded from other octets. -/
theorem account_database :
    (∀ (config : InstallConfig) (salt : Vector UInt8 16), validateInstallConfig config = true →
      config.addUser ≠ 0 →
      ∃ database hash account, makeDatabase passwordHash (some salt) config = some database ∧
        passwordHash config.passwordBytes salt pbkdf2Iterations = some hash ∧
        fillDatabase config salt hash = .ok database ∧
        decodeAccountChecked database = .ok (some account) ∧
        account.username = config.usernameBytes ∧
        account.administrator = decide (config.administrator ≠ 0) ∧
        account.uid = 1000 ∧ account.gid = 1000 ∧
        (∀ password, account.verifyPassword passwordKey password = true ↔
          standardKey password account.salt pbkdf2Iterations =
            standardKey config.passwordBytes account.salt pbkdf2Iterations) ∧
        account.verifyPassword passwordKey config.passwordBytes = true) ∧
    ∀ bytes, decodeAccountChecked bytes ≠ Checked.panic ∧
      ∀ account, decodeAccountChecked bytes = .ok (some account) →
        ∃ n, 0 < n ∧ 68 + n ≤ bytes.length ∧ account.username = between bytes 68 (68 + n) := by
  constructor
  · intro config salt h huser
    obtain ⟨hash, hmake, hmade, hhash⟩ := makeDatabase_eq salt h huser
    refine ⟨_, hash, accountOf config salt hash, hmake, hmade, ?_, ?_, rfl, rfl, rfl, rfl, ?_, ?_⟩
    · exact fillDatabase_eq (length_usernameBytes h huser).2.2.1
    · rw [decodeAccountChecked_eq, decodeAccount_record h huser]
    · intro password
      exact verifyPassword_iff hhash password
    · exact (verifyPassword_iff hhash config.passwordBytes).mpr rfl
  · intro bytes
    rw [decodeAccountChecked_eq]
    constructor
    · nofun
    · intro account h
      exact decodeAccount_username (Except.ok.inj h)

/-- An administrator whose name and password have the greatest lengths. -/
def longestUser : InstallConfig where
  usernameLength := 32
  passwordLength := 64
  hostnameLength := 0
  addUser := 1
  administrator := 1
  username := Vector.replicate 32 97
  password := Vector.replicate 64 112
  hostname := Vector.replicate 64 0

theorem account_database_longest :
    ∃ database account,
      makeDatabase passwordHash (some (Vector.replicate 16 7)) longestUser = some database ∧
      decodeAccountChecked database = .ok (some account) ∧
      account.username = List.replicate 32 97 := by
  obtain ⟨database, -, account, hmake, -, -, hdecode, hname, -⟩ :=
    account_database.1 longestUser (Vector.replicate 16 7) (by decide) (by decide)
  exact ⟨database, account, hmake, hdecode, hname⟩

end ImagineOS.Accounts
