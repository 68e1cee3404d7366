import ImagineOS.Dfs.Seed
import ImagineOS.Exec.Accounts
import ImagineOS.Installer.Fat
import ImagineOS.Installer.PartitionTable

/-!
# Installer: a configured install

The whole installation, on a device that never fails: the configuration and the payloads are
checked, the partition table and the partition of the boot loader are written, a file system is
made and seeded from an archive, and the host name and the account database are stored in it.
-/

namespace ImagineOS

open BlockProgram Fallible

namespace Installer

open Dfs (Layout DfsProgram Transaction commitRun)
open Exec (accountNameSize databaseMagic pbkdf2Iterations rootName)

/-! ### The configuration -/

structure InstallConfig where
  usernameLength : UInt8
  passwordLength : UInt8
  hostnameLength : UInt8
  addUser : UInt8
  administrator : UInt8
  username : Vector UInt8 32
  password : Vector UInt8 64
  hostname : Vector UInt8 64
  deriving DecidableEq

namespace InstallConfig

variable (config : InstallConfig)

/-- `&config.username[..config.username_length as usize]` -/
def usernameBytes : List UInt8 := config.username.toList.take config.usernameLength.toNat

/-- `&config.password[..config.password_length as usize]` -/
def passwordBytes : List UInt8 := config.password.toList.take config.passwordLength.toNat

/-- `&config.hostname[..config.hostname_length as usize]` -/
def hostnameBytes : List UInt8 := config.hostname.toList.take config.hostnameLength.toNat

end InstallConfig

def accountPasswordSize : ℕ := 64

def hostnameSize : ℕ := 64

def isAsciiDigit (byte : UInt8) : Bool := 48 ≤ byte ∧ byte ≤ 57

def isAsciiLowercase (byte : UInt8) : Bool := 97 ≤ byte ∧ byte ≤ 122

def isAsciiAlphanumeric (byte : UInt8) : Bool :=
  isAsciiDigit byte || isAsciiLowercase byte || decide (65 ≤ byte ∧ byte ≤ 90)

/-- What is allowed in a host name: a letter, a digit, `-` or `.`. -/
def isHostnameByte (byte : UInt8) : Bool := isAsciiAlphanumeric byte || byte == 45 || byte == 46

/-- What is allowed in a user name: a small letter, a digit, `-` or `_`. -/
def isUsernameByte (byte : UInt8) : Bool :=
  isAsciiLowercase byte || isAsciiDigit byte || byte == 45 || byte == 95

def validateInstallConfig (config : InstallConfig) : Bool :=
  if hostnameSize < config.hostnameLength.toNat ∨ accountNameSize < config.usernameLength.toNat ∨
      accountPasswordSize < config.passwordLength.toNat ∨ 1 < config.addUser ∨
      1 < config.administrator then false
  else
    let hostname := config.hostnameBytes
    if hostname ≠ [] ∧ (¬ hostname.all isHostnameByte ∨ hostname.getD 0 0 = 45 ∨
        hostname.getD 0 0 = 46) then false
    else if config.addUser = 0 then
      config.usernameLength = 0 ∧ config.passwordLength = 0 ∧ config.administrator = 0
    else
      let username := config.usernameBytes
      let password := config.passwordBytes
      ¬ (username = [] ∨ username = rootName ∨ ¬ username.all isUsernameByte ∨ password = [] ∨
        password.contains 0)

/-- `accounts::hostname`: `imagineos`, unless there is another one. -/
def hostname (config : InstallConfig) : List UInt8 :=
  if config.hostnameLength = 0 then [105, 109, 97, 103, 105, 110, 101, 111, 115]
  else config.hostnameBytes

section Database

variable (pbkdf2 : List UInt8 → Vector UInt8 16 → ℕ → Option (Vector UInt8 32))

/-- `make_database`, with the key derivation function of the kernel and the salt that
`fill_random` gives, if it gives one. -/
def makeDatabase (salt : Option (Vector UInt8 16)) (config : InstallConfig) :
    Option (List UInt8) :=
  if ¬ validateInstallConfig config ∨ config.addUser = 0 then none
  else do
    let salt ← salt
    let hash ← pbkdf2 config.passwordBytes salt pbkdf2Iterations
    pure (databaseMagic ++ [config.usernameLength, config.administrator, 0, 0] ++ leBytes 4 1000 ++
      leBytes 4 1000 ++ salt.toList ++ hash.toList ++ config.usernameBytes ++
      List.replicate (32 - config.usernameBytes.length) 0)

/-- The `account_database` of `install_configured`. -/
def accountDatabase (salt : Option (Vector UInt8 16)) (accountConfig : Option InstallConfig) :
    Except InstallError (Option (List UInt8)) :=
  match accountConfig with
  | none => pure none
  | some config =>
    if config.addUser = 0 then pure none
    else match makeDatabase pbkdf2 salt config with
      | none => throw .entropyUnavailable
      | some database => pure (some database)

end Database

section Checked

variable {config : InstallConfig}

theorem validate_user (h : validateInstallConfig config) (huser : config.addUser ≠ 0) :
    config.usernameBytes.length ≤ 32 ∧ config.usernameBytes.all isUsernameByte := by
  unfold validateInstallConfig at h
  split at h
  · cases h
  simp only at h
  split at h
  · cases h
  have hname := of_decide_eq_true h
  simp only [not_or, not_not] at hname
  refine ⟨?_, hname.2.2.1⟩
  rw [InstallConfig.usernameBytes, List.length_take, Vector.length_toList]
  omega

theorem accountDatabase_eq_ok {pbkdf2 : List UInt8 → Vector UInt8 16 → ℕ → Option (Vector UInt8 32)}
    {salt : Option (Vector UInt8 16)} {database : List UInt8}
    (h : accountDatabase pbkdf2 salt (some config) = .ok (some database)) :
    config.addUser ≠ 0 ∧ database.length = 100 := by
  rw [accountDatabase] at h
  split at h
  · cases h
  rename_i huser
  refine ⟨huser, ?_⟩
  split at h
  · cases h
  rename_i made hmade
  obtain rfl : made = database := Option.some.inj (Except.ok.inj h)
  rw [makeDatabase] at hmade
  split at hmade
  · cases hmade
  rename_i hvalid
  rw [not_or, not_not] at hvalid
  obtain ⟨salt, -, hmade⟩ := Option.bind_eq_some_iff.mp hmade
  obtain ⟨hash, -, hmade⟩ := Option.bind_eq_some_iff.mp hmade
  obtain rfl := Option.some.inj hmade
  have hlength := (validate_user hvalid.1 huser).1
  simp only [List.length_append, Vector.length_toList, length_leBytes, List.length_replicate,
    List.length_cons, List.length_nil, Exec.databaseMagic]
  omega

end Checked

/-! ### Steps -/

/-- What is done to the disk of a device that never fails. -/
abbrev DiskM (ε α : Type) : Type := ExceptT ε (StateM (ℕ → Sector)) α

/-- The run of a program that makes no calls. -/
def onDisk {ε ε' α : Type} (wrap : ε → ε') (m : Fallible Sector BlockError Empty ε α) :
    DiskM ε' α :=
  ExceptT.mk fun d => ((onDevice m d).1.mapError wrap, (onDevice m d).2)

/-- The run of a program of a file system. -/
def onDfs {ε α : Type} (wrap : DfsError → ε) (dfs : Layout) (m : DfsProgram Transaction α) :
    DiskM ε α :=
  ExceptT.mk fun d => ((m.run.run (commitRun dfs) d).1.mapError wrap,
    (m.run.run (commitRun dfs) d).2)

/-- `Dfs::format`, which makes the transactions of its own layout. -/
def formatDfs {ε : Type} (wrap : DfsError → ε) (startLba sectors : ℕ) : DiskM ε Layout :=
  match Dfs.makeLayout startLba sectors with
  | .error e => throw (wrap e)
  | .ok dfs => onDfs wrap dfs (Dfs.format startLba sectors)

/-- A check that leaves the disk alone. -/
def check {ε α : Type} (r : Except ε α) : DiskM ε α := ExceptT.mk fun d => (r, d)

/-! ### The installation -/

/-- What `read_tsc` gives, each time that it is called. -/
structure Tsc where
  disk : BitVec 64
  esp : BitVec 64
  dfs : BitVec 64
  volume : BitVec 64

/-- `"etc"` -/
def etcPath : Str := ⟨[101, 116, 99], by decide⟩

/-- `"etc/hostname"` -/
def hostnamePath : Str := ⟨[101, 116, 99, 47, 104, 111, 115, 116, 110, 97, 109, 101], by decide⟩

/-- `"etc/users.db"` -/
def usersPath : Str := ⟨[101, 116, 99, 47, 117, 115, 101, 114, 115, 46, 100, 98], by decide⟩

/-- `b"home/"` -/
def homePrefix : List UInt8 := [104, 111, 109, 101, 47]

/-- The configuration is stored in the file system. -/
def storeAccounts (dfs : Layout) (config : InstallConfig) (accountDatabase : Option (List UInt8)) :
    DiskM InstallError Unit := do
  onDfs (fun _ => .dfsFormat) dfs
    (Dfs.orExists (Dfs.createDirectory dfs etcPath 0o755 0 0))
  let _ ← onDfs (fun _ => .dfsFormat) dfs
    (Dfs.writeFile dfs hostnamePath 0 (hostname config) true 0o644 0 0)
  match accountDatabase with
  | none => pure ()
  | some database =>
    let _ ← onDfs (fun _ => .dfsFormat) dfs
      (Dfs.writeFile dfs usersPath 0 database true 0o600 0 0)
    match fromUtf8 (homePrefix ++ config.usernameBytes) with
    | none => throw .invalidAccountConfig
    | some homePath =>
      onDfs (fun _ => .dfsFormat) dfs
        (Dfs.orExists (Dfs.createDirectory dfs homePath 0o750 1000 1000))

section Install

variable (pbkdf2 : List UInt8 → Vector UInt8 16 → ℕ → Option (Vector UInt8 32))

/-- What `install_configured` checks first. -/
def checkInstall (sectorCount : ℕ) (salt : Option (Vector UInt8 16)) (payloads : Payloads)
    (accountConfig : Option InstallConfig) :
    Except InstallError (Option (List UInt8) × EspPlan) :=
  if accountConfig.any fun config => ¬ validateInstallConfig config then
    throw .invalidAccountConfig
  else do
    let database ← accountDatabase pbkdf2 salt accountConfig
    if sectorCount < minDiskSectors then throw .diskTooSmall
    else
      let plan ← planEsp payloads
      pure (database, plan)

def installConfigured (sectorCount : ℕ) (tsc : Tsc) (salt : Option (Vector UInt8 16))
    (payloads : Payloads) (accountConfig : Option InstallConfig) : DiskM InstallError Unit := do
  let (database, plan) ← check (checkInstall pbkdf2 sectorCount salt payloads accountConfig)
  onDisk id (writeGpt sectorCount tsc.disk tsc.esp tsc.dfs)
  onDisk id (formatFat16 tsc.volume plan)
  let partition ← onDisk (fun _ => .dfsFormat)
    (locatePartition sectorCount Gpt.dfsPartitionTypeGuid)
  let dfs ← formatDfs (fun _ => .dfsFormat) partition.firstLba
    (partition.lastLba - partition.firstLba + 1)
  onDfs (fun _ => .dfsFormat) dfs (Dfs.seedFromUstar dfs payloads.ramfsImage)
  match accountConfig with
  | none => pure ()
  | some config => storeAccounts dfs config database
  onDisk id (Fallible.flush .block)

/-- What the checks leave. -/
theorem checkInstall_eq_ok {pbkdf2 : List UInt8 → Vector UInt8 16 → ℕ → Option (Vector UInt8 32)}
    {sectorCount : ℕ} {salt : Option (Vector UInt8 16)} {payloads : Payloads}
    {accountConfig : Option InstallConfig} {database : Option (List UInt8)} {plan : EspPlan}
    (h : checkInstall pbkdf2 sectorCount salt payloads accountConfig = .ok (database, plan)) :
    (∀ config, accountConfig = some config → validateInstallConfig config) ∧
      accountDatabase pbkdf2 salt accountConfig = .ok database ∧ minDiskSectors ≤ sectorCount ∧
      planEsp payloads = .ok plan := by
  unfold checkInstall at h
  split at h
  · cases h
  rename_i hvalid
  cases hdatabase : accountDatabase pbkdf2 salt accountConfig with
  | error e =>
    rw [hdatabase] at h
    cases h
  | ok made =>
    rw [hdatabase] at h
    change (if sectorCount < minDiskSectors then _ else _) = _ at h
    split at h
    · cases h
    rename_i hmin
    cases hplan : planEsp payloads with
    | error e =>
      rw [hplan] at h
      cases h
    | ok planned =>
      rw [hplan] at h
      obtain ⟨rfl, rfl⟩ := Prod.mk.inj (Except.ok.inj h)
      refine ⟨?_, rfl, not_lt.mp hmin, rfl⟩
      rintro config rfl
      simpa using hvalid

end Install

/-! ### Reading a file after the installation -/

/-- `Dfs::mount` of the partition that the installer made. -/
def mountInstalled (sectorCount : ℕ) : DiskM DfsError Layout :=
  onDisk id (Dfs.mount dfsStartLba (dfsEndLba sectorCount - dfsStartLba + 1))

/-- `read_file`, after a mount. -/
def readInstalled (sectorCount : ℕ) (path : Str) (offset length : ℕ) :
    DiskM DfsError (List UInt8) := do
  let dfs ← mountInstalled sectorCount
  onDfs id dfs (Dfs.readFile dfs path offset length)

/-! ### Runs of steps -/

namespace DiskM

variable {ε α β : Type} {d d' : ℕ → Sector}

variable {m : DiskM ε α} {f : α → DiskM ε β}

theorem run_bind {a : α} {d₁ : ℕ → Sector}
    (h : m.run d = (.ok a, d₁)) : (m >>= f).run d = (f a).run d₁ := by
  simp only [ExceptT.run] at h ⊢
  simp [bind, ExceptT.bind, ExceptT.mk, StateT.bind, h, ExceptT.bindCont]

theorem run_bind_error {e : ε} {d₁ : ℕ → Sector}
    (h : m.run d = (.error e, d₁)) : (m >>= f).run d = (.error e, d₁) := by
  simp only [ExceptT.run] at h ⊢
  simp only [bind, ExceptT.bind, ExceptT.mk, StateT.bind, h, ExceptT.bindCont]
  rfl

/-- **A sequence succeeds if both of its steps do.** -/
theorem bind_eq_ok {b : β} (h : (m >>= f).run d = (.ok b, d')) :
    ∃ a d₁, m.run d = (.ok a, d₁) ∧ (f a).run d₁ = (.ok b, d') := by
  obtain ⟨r, d₁, hm⟩ : ∃ r d₁, m.run d = (r, d₁) := ⟨_, _, rfl⟩
  cases r with
  | ok a => exact ⟨a, d₁, hm, (run_bind hm).symm.trans h⟩
  | error e => cases congrArg Prod.fst ((run_bind_error hm).symm.trans h)

end DiskM

section Steps

variable {ε ε' α : Type} {wrap : ε → ε'} {d d' : ℕ → Sector} {a : α}

theorem onDisk_eq_ok {m : Fallible Sector BlockError Empty ε α} :
    (onDisk wrap m).run d = (.ok a, d') ↔ onDevice m d = (.ok a, d') := by
  change ((onDevice m d).1.mapError wrap, (onDevice m d).2) = _ ↔ _
  rcases onDevice m d with ⟨r, d₁⟩
  cases r <;> simp [Except.mapError]

theorem onDfs_eq_ok {wrap : DfsError → ε} {L : Layout} {m : DfsProgram Transaction α} :
    (onDfs wrap L m).run d = (.ok a, d') ↔ m.run.run (commitRun L) d = (.ok a, d') := by
  change ((m.run.run (commitRun L) d).1.mapError wrap, (m.run.run (commitRun L) d).2) = _ ↔ _
  rcases m.run.run (commitRun L) d with ⟨r, d₁⟩
  cases r <;> simp [Except.mapError]

theorem check_eq_ok {r : Except ε α} : (check r).run d = (.ok a, d') ↔ r = .ok a ∧ d = d' := by
  change (r, d) = _ ↔ _
  rw [Prod.mk.injEq]

/-- The disk after `Dfs::format`. -/
theorem formatDfs_eq_ok {wrap : DfsError → ε} {startLba sectors : ℕ} {L : Layout} :
    (formatDfs wrap startLba sectors).run d = (.ok L, d') ↔
      Dfs.makeLayout startLba sectors = .ok L ∧
        (Dfs.format L.startLba L.sectors).run.run (commitRun L) d = (.ok L, d') := by
  unfold formatDfs
  split
  · rename_i e hlayout
    rw [hlayout]
    change ((.error (wrap e), d) : Except ε Layout × (ℕ → Sector)) = _ ↔ _
    simp
  · rename_i L' hlayout
    obtain ⟨rfl, rfl⟩ := Dfs.makeLayout_eq_ok hlayout
    obtain ⟨d₀, hrun, -⟩ := Dfs.run_format L' d
    rw [onDfs_eq_ok, hlayout]
    constructor
    · intro h
      obtain rfl : L' = L := Except.ok.inj (congrArg Prod.fst (hrun.symm.trans h))
      exact ⟨rfl, h⟩
    · rintro ⟨h, hrun'⟩
      obtain rfl : L' = L := Except.ok.inj h
      exact hrun'

end Steps

end Installer

end ImagineOS
