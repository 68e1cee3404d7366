import ImagineOS.BlockProgram.Requests
import ImagineOS.Installer.Configure
import ImagineOS.Installer.FatSectors
import ImagineOS.Overlay.RamFs

/-!
# Installer: what is rejected is rejected first

`installConfigured` composes the runs of programs on a device that never fails. Here the whole
installation is one program without calls, for any device: the transactions of the file system are
in it. On a device that never fails it is `installConfigured` (`onDisk_installConfigured`).
-/

namespace ImagineOS

open BlockProgram Fallible

/-- What an installation is rejected for. The other errors are those of the device and of the file
system. -/
def InstallError.IsValidation : InstallError → Prop
  | .dfsFormat => False
  | .block _ => False
  | _ => True

namespace Installer

open Dfs (Layout DfsProgram Transaction commitRun commitTransaction)

namespace Program

/-! ### The installation -/

/-- The program of a file system, with its transactions. -/
def dfsProgram {α : Type} (dfs : Layout) (m : DfsProgram Transaction α) : InstallProgram Empty α :=
  inside (fun _ => .dfsFormat) (fun tx => (commitTransaction dfs tx).run.inline fun c => c.elim) m

/-- What `install_configured` stores of the configuration. -/
def storeAccounts (dfs : Layout) (config : InstallConfig)
    (accountDatabase : Option (List UInt8)) : InstallProgram Empty Unit := do
  dfsProgram dfs (Dfs.orExists (Dfs.createDirectory dfs etcPath 0o755 0 0))
  let _ ← dfsProgram dfs (Dfs.writeFile dfs hostnamePath 0 (hostname config) true 0o644 0 0)
  match accountDatabase with
  | none => pure ()
  | some database =>
    let _ ← dfsProgram dfs (Dfs.writeFile dfs usersPath 0 database true 0o600 0 0)
    match fromUtf8 (homePrefix ++ config.usernameBytes) with
    | none => throw .invalidAccountConfig
    | some homePath =>
      dfsProgram dfs (Dfs.orExists (Dfs.createDirectory dfs homePath 0o750 1000 1000))

/-- `Dfs::format` -/
def formatDfs (startLba sectors : ℕ) : InstallProgram Empty Layout :=
  match Dfs.makeLayout startLba sectors with
  | .error _ => throw .dfsFormat
  | .ok dfs => dfsProgram dfs (Dfs.format startLba sectors)

section Install

variable (pbkdf2 : List UInt8 → Vector UInt8 16 → ℕ → Option (Vector UInt8 32))

/-- `install_configured`, once the checks have passed. -/
def writeInstallation (sectorCount : ℕ) (tsc : Tsc) (payloads : Payloads)
    (accountConfig : Option InstallConfig) (database : Option (List UInt8)) (plan : EspPlan) :
    InstallProgram Empty Unit := do
  writeGpt sectorCount tsc.disk tsc.esp tsc.dfs
  formatFat16 tsc.volume plan
  let partition ← inside (fun _ => .dfsFormat) (fun c => c.elim)
    (locatePartition sectorCount Gpt.dfsPartitionTypeGuid)
  let dfs ← formatDfs partition.firstLba (partition.lastLba - partition.firstLba + 1)
  dfsProgram dfs (Dfs.seedFromUstar dfs payloads.ramfsImage)
  match accountConfig with
  | none => pure ()
  | some config => storeAccounts dfs config database
  Fallible.flush .block

def installConfigured (sectorCount : ℕ) (tsc : Tsc) (salt : Option (Vector UInt8 16))
    (payloads : Payloads) (accountConfig : Option InstallConfig) : InstallProgram Empty Unit :=
  match checkInstall pbkdf2 sectorCount salt payloads accountConfig with
  | .error e => throw e
  | .ok (database, plan) =>
    writeInstallation sectorCount tsc payloads accountConfig database plan

def install (sectorCount : ℕ) (tsc : Tsc) (payloads : Payloads) : InstallProgram Empty Unit :=
  installConfigured pbkdf2 sectorCount tsc none payloads none

end Install

/-! ### The payloads of the primary master -/

/-- `MAX_EXECUTABLE_SIZE`, of the file system. -/
def maxExecutableSize : ℕ := 1024 * 1024

/-- `dfs::read_static`: what it copies to the start of `EXECUTABLE_BUFFER`. -/
def readStatic (mounted : Option Layout) (path : Str) :
    InstallProgram Empty (Option (List UInt8)) :=
  match mounted with
  | none => pure none
  | some dfs => do
    match ← attempt (Dfs.stat dfs path) with
    | none => pure none
    | some metadata =>
      if metadata.isDirectory ∨ maxExecutableSize < metadata.size then pure none
      else attempt (Dfs.readFile dfs path 0 metadata.size)

/-- `Backend`, with what it has mounted. -/
inductive Backend
  | dfs (mounted : Option Layout)
  | ramFs (fs : Overlay.RamFs)

namespace Backend

/-- `ramfs::read` -/
def read (backend : Backend) (path : Str) : InstallProgram Empty (Option (List UInt8)) :=
  match backend with
  | dfs mounted => readStatic mounted path
  | ramFs fs => pure (Overlay.readFromOverlay fs path.val)

/-- What is in the slice of one of the reads, after the last of them: those of `read_static` are
all slices of one buffer, from its start. -/
def slice (backend : Backend) (reads : List (List UInt8)) (bytes : List UInt8) : List UInt8 :=
  match backend with
  | dfs _ =>
    let buffer := reads.foldl (fun buffer bytes => bytes ++ buffer.drop bytes.length) []
    buffer.take bytes.length
  | ramFs _ => bytes

/-- A payload, which has to be there. -/
def payload (backend : Backend) (path : Str) : InstallProgram Empty (List UInt8) := do
  match ← backend.read path with
  | none => throw .missingPayload
  | some bytes => pure bytes

end Backend

/-- `"/system/install/bootstrap.elf"` -/
def bootstrapPath : Str := ⟨[47, 115, 121, 115, 116, 101, 109, 47, 105, 110, 115, 116, 97, 108, 108,
  47, 98, 111, 111, 116, 115, 116, 114, 97, 112, 46, 101, 108, 102], by decide⟩

/-- `"/system/install/dzImage"` -/
def dzImagePath : Str := ⟨[47, 115, 121, 115, 116, 101, 109, 47, 105, 110, 115, 116, 97, 108, 108,
  47, 100, 122, 73, 109, 97, 103, 101], by decide⟩

/-- `"/system/install/BOOTX64.EFI"` -/
def efiPath : Str := ⟨[47, 115, 121, 115, 116, 101, 109, 47, 105, 110, 115, 116, 97, 108, 108, 47,
  66, 79, 79, 84, 88, 54, 52, 46, 69, 70, 73], by decide⟩

/-- `"/system/install/limine.conf"` -/
def configPath : Str := ⟨[47, 115, 121, 115, 116, 101, 109, 47, 105, 110, 115, 116, 97, 108, 108,
  47, 108, 105, 109, 105, 110, 101, 46, 99, 111, 110, 102], by decide⟩

/-- `"/system/install/startup.nsh"` -/
def startupPath : Str := ⟨[47, 115, 121, 115, 116, 101, 109, 47, 105, 110, 115, 116, 97, 108, 108,
  47, 115, 116, 97, 114, 116, 117, 112, 46, 110, 115, 104], by decide⟩

/-- `"/system/install/initramfs-installed.tar"` -/
def ramfsImagePath : Str := ⟨[47, 115, 121, 115, 116, 101, 109, 47, 105, 110, 115, 116, 97, 108,
  108, 47, 105, 110, 105, 116, 114, 97, 109, 102, 115, 45, 105, 110, 115, 116, 97, 108, 108, 101,
  100, 46, 116, 97, 114], by decide⟩

/-- `install_primary_master`, on the primary master. -/
def installPrimaryMaster (pbkdf2 : List UInt8 → Vector UInt8 16 → ℕ → Option (Vector UInt8 32))
    (sectorCount : ℕ) (tsc : Tsc) (salt : Option (Vector UInt8 16)) (backend : Backend)
    (accountConfig : InstallConfig) : InstallProgram Empty Unit :=
  if sectorCount = 0 then throw .noDisk
  else do
    let bootstrap ← backend.payload bootstrapPath
    let dzImage ← backend.payload dzImagePath
    let efi ← backend.payload efiPath
    let config ← backend.payload configPath
    let startup ← backend.payload startupPath
    let ramfsImage ← backend.payload ramfsImagePath
    let slice := backend.slice [bootstrap, dzImage, efi, config, startup, ramfsImage]
    installConfigured pbkdf2 sectorCount tsc salt
      ⟨slice bootstrap, slice dzImage, slice ramfsImage, slice efi, slice config, slice startup⟩
      (some accountConfig)

end Program

/-! ### On a device that never fails -/

section NeverFails

variable {α β : Type}

theorem onDisk_throw (e : InstallError) : (onDisk id (throw e) : DiskM InstallError α) = throw e :=
  rfl

theorem onDisk_bind (m : InstallProgram Empty α) (f : α → InstallProgram Empty β) :
    (onDisk id (m >>= f) : DiskM InstallError β) = onDisk id m >>= fun a => onDisk id (f a) := by
  funext d
  obtain ⟨r, d₁, hm⟩ : ∃ r d₁, onDevice m d = (r, d₁) := ⟨_, _, rfl⟩
  have hbind : onDevice (m >>= f) d = _ := run_bind_eq hm
  cases r with
  | ok a =>
    have hrun : (onDisk id m : DiskM InstallError α).run d = (.ok a, d₁) := onDisk_eq_ok.mpr hm
    refine Eq.trans ?_ (DiskM.run_bind hrun).symm
    change ((onDevice (m >>= f) d).1.mapError id, (onDevice (m >>= f) d).2) = _
    rw [hbind]
    rfl
  | error e =>
    have hrun : (onDisk id m : DiskM InstallError α).run d = (.error e, d₁) := by
      change ((onDevice m d).1.mapError id, (onDevice m d).2) = _
      rw [hm]
      rfl
    refine Eq.trans ?_ (DiskM.run_bind_error hrun).symm
    change ((onDevice (m >>= f) d).1.mapError id, (onDevice (m >>= f) d).2) = _
    rw [hbind]
    rfl

theorem onDisk_inside {ε : Type} (wrap : ε → InstallError)
    (body : Empty → Prog Sector BlockError Empty (Except InstallError Unit) (Except ε Unit))
    (m : Fallible Sector BlockError Empty ε α) :
    onDisk id (inside wrap body m) = onDisk wrap m := by
  have hbody : (fun c e => (body c).run (fun c' => c'.elim) e :
      Empty → (ℕ → Sector) → Except ε Unit × (ℕ → Sector)) = fun c => c.elim :=
    funext fun c => c.elim
  funext d
  change ((onDevice (inside wrap body m) d).1.mapError id, (onDevice (inside wrap body m) d).2) = _
  rw [onDevice, run_inside, hbody]
  change (((onDevice m d).1.mapError wrap).mapError id, (onDevice m d).2) =
    ((onDevice m d).1.mapError wrap, (onDevice m d).2)
  cases (onDevice m d).1 <;> rfl

theorem onDisk_dfsProgram (dfs : Layout) (m : DfsProgram Transaction α) :
    onDisk id (Program.dfsProgram dfs m) = onDfs (fun _ => InstallError.dfsFormat) dfs m := by
  have hcommit : (fun tx e => ((commitTransaction dfs tx).run.inline fun c => c.elim).run
      (fun c => c.elim : Empty → (ℕ → Sector) → Except InstallError Unit × (ℕ → Sector)) e) =
      commitRun dfs := by
    funext tx e
    rw [Prog.run_inline, commitRun]
    exact congrArg (fun callee => (commitTransaction dfs tx).run.run callee e)
      (funext fun c => c.elim)
  funext d
  change ((onDevice (Program.dfsProgram dfs m) d).1.mapError id,
    (onDevice (Program.dfsProgram dfs m) d).2) = _
  rw [onDevice, Program.dfsProgram, run_inside, hcommit]
  change (((m.run.run (commitRun dfs) d).1.mapError _).mapError id, _) =
    ((m.run.run (commitRun dfs) d).1.mapError _, _)
  cases (m.run.run (commitRun dfs) d).1 <;> rfl

theorem onDisk_formatDfs (startLba sectors : ℕ) :
    onDisk id (Program.formatDfs startLba sectors) =
      formatDfs (fun _ => InstallError.dfsFormat) startLba sectors := by
  unfold Program.formatDfs formatDfs
  cases Dfs.makeLayout startLba sectors with
  | error e => exact onDisk_throw _
  | ok dfs => exact onDisk_dfsProgram dfs _

theorem onDisk_storeAccounts (dfs : Layout) (config : InstallConfig)
    (database : Option (List UInt8)) :
    onDisk id (Program.storeAccounts dfs config database) = storeAccounts dfs config database := by
  unfold Program.storeAccounts storeAccounts
  simp only [onDisk_bind, onDisk_dfsProgram]
  cases database with
  | none => rfl
  | some db =>
    simp only [onDisk_bind, onDisk_dfsProgram]
    cases fromUtf8 (homePrefix ++ config.usernameBytes) with
    | none => rfl
    | some homePath => simp only [onDisk_dfsProgram]

end NeverFails

/-! ### Reading the payloads -/

section Readers

variable {C : Type} {allowed : ℕ → Prop} {dfs : Layout}

theorem writesIn_readNode (index : ℕ) :
    (Dfs.readNode dfs index : DfsProgram C Dfs.Node).run.WritesIn allowed := by
  rw [Dfs.readNode]
  split
  · exact trivial
  · exact writesIn_bind (m := Dfs.readSector _) (fun _ => trivial) fun bytes => trivial

theorem writesIn_findIndexIn (path : List UInt8) (indices : List ℕ) :
    (Dfs.findIndexIn dfs path indices : DfsProgram C (Option ℕ)).run.WritesIn allowed := by
  induction indices with
  | nil => exact trivial
  | cons index indices ih =>
    refine writesIn_bind (writesIn_readNode index) fun node => ?_
    split
    · exact trivial
    · exact ih

theorem writesIn_findNode (path : List UInt8) :
    (Dfs.findNode dfs path : DfsProgram C (Option Dfs.Node)).run.WritesIn allowed := by
  refine writesIn_bind (writesIn_findIndexIn path _) fun found => ?_
  cases found with
  | none => exact trivial
  | some index => exact writesIn_bind (writesIn_readNode index) fun node => trivial

theorem writesIn_stat (path : Str) :
    (Dfs.stat dfs path : DfsProgram C Overlay.Metadata).run.WritesIn allowed := by
  refine writesIn_bind (m := Dfs.ofExcept (Dfs.canonicalPath path)) trivial fun p => ?_
  refine writesIn_bind (writesIn_findNode p.bytes) fun found => ?_
  cases found with
  | none => exact trivial
  | some node => exact trivial

theorem writesIn_readFrom (node : Dfs.Node) (position remaining : ℕ) :
    (Dfs.readFrom node position remaining : DfsProgram C (List UInt8)).run.WritesIn allowed := by
  fun_induction Dfs.readFrom (C := C) node position remaining with
  | case1 => exact trivial
  | case2 => exact trivial
  | case3 position remaining h hchunk physical hphysical ih =>
    refine writesIn_bind (m := Dfs.readSector physical) (fun _ => trivial) fun sector => ?_
    exact writesIn_bind ih fun rest => trivial

theorem writesIn_readFile (path : Str) (offset length : ℕ) :
    (Dfs.readFile dfs path offset length : DfsProgram C (List UInt8)).run.WritesIn allowed := by
  refine writesIn_bind (m := Dfs.ofExcept (Dfs.canonicalPath path)) trivial fun p => ?_
  refine writesIn_bind (writesIn_findNode p.bytes) fun found => ?_
  cases found with
  | none => exact trivial
  | some node =>
    dsimp only
    split
    · exact trivial
    · split
      · exact trivial
      · exact writesIn_readFrom node offset _

theorem writesIn_payload (backend : Program.Backend) (path : Str) :
    (backend.payload path).run.WritesIn allowed := by
  refine writesIn_bind (m := backend.read path) ?_ fun found => ?_
  · cases backend with
    | ramFs fs => exact trivial
    | dfs mounted =>
      cases mounted with
      | none => exact trivial
      | some dfs =>
        refine writesIn_bind (writesIn_attempt (writesIn_stat path)) fun found => ?_
        cases found with
        | none => exact trivial
        | some metadata =>
          dsimp only
          split
          · exact trivial
          · exact writesIn_attempt (writesIn_readFile path _ _)
  · cases found with
    | none => exact trivial
    | some bytes => exact trivial

end Readers

/-! ### What is rejected -/

section Rejected

variable {α : Type} {pbkdf2 : List UInt8 → Vector UInt8 16 → ℕ → Option (Vector UInt8 32)} {N : ℕ}
  {tsc : Tsc} {salt : Option (Vector UInt8 16)} {payloads : Payloads} {dfs : Layout}
  {accountConfig : Option InstallConfig} {config : InstallConfig}
  {database : Option (List UInt8)} {plan : EspPlan}

theorem isUsernameByte_lt {b : UInt8} (h : isUsernameByte b) : b < 0x80 := by
  simp only [isUsernameByte, isAsciiLowercase, isAsciiDigit, Bool.or_eq_true, decide_eq_true_eq,
    beq_iff_eq, UInt8.le_iff_toNat_le, ← UInt8.toNat_inj] at h
  simp only [UInt8.lt_iff_toNat_lt]
  simp at h ⊢
  omega

/-- **The path of the home directory is a string**, since the name of the user is ASCII. -/
theorem isSome_homePath (hvalid : validateInstallConfig config) (huser : config.addUser ≠ 0) :
    (fromUtf8 (homePrefix ++ config.usernameBytes)).isSome := by
  have hutf8 : validUtf8 (homePrefix ++ config.usernameBytes) := by
    refine validUtf8_ascii fun b hb => ?_
    rcases List.mem_append.mp hb with hb | hb
    · exact (by decide +kernel : ∀ b ∈ homePrefix, b < 0x80) b hb
    · exact isUsernameByte_lt (List.all_eq_true.mp (validate_user hvalid huser).2 b hb)
  rw [fromUtf8, dif_pos hutf8]
  rfl

-- The programs of the file system are large trees, which nothing here looks into.
attribute [local irreducible] Fallible.Ends

theorem ends_dfsProgram (dfs : Layout) (m : DfsProgram Transaction α) :
    (Program.dfsProgram dfs m).Ends (fun e => ¬ e.IsValidation) fun _ => True :=
  ends_inside (fun _ => id) _ m

theorem ends_formatDfs (startLba sectors : ℕ) :
    (Program.formatDfs startLba sectors).Ends (fun e => ¬ e.IsValidation) fun _ => True := by
  unfold Program.formatDfs
  cases Dfs.makeLayout startLba sectors with
  | error e => exact ends_throw id
  | ok dfs => exact ends_dfsProgram dfs (Dfs.format startLba sectors)

theorem ends_storeAccounts (dfs : Layout) (hhome : ∀ db, database = some db →
      (fromUtf8 (homePrefix ++ config.usernameBytes)).isSome) :
    (Program.storeAccounts dfs config database).Ends (fun e => ¬ e.IsValidation)
      fun _ => True := by
  unfold Program.storeAccounts
  refine (ends_dfsProgram dfs _).bind fun _ _ => (ends_dfsProgram dfs _).bind fun _ _ => ?_
  cases database with
  | none => exact ends_pure trivial
  | some db =>
    refine (ends_dfsProgram dfs _).bind fun _ _ => ?_
    obtain ⟨homePath, hpath⟩ := Option.isSome_iff_exists.mp (hhome db rfl)
    rw [hpath]
    exact ends_dfsProgram dfs _

theorem ends_formatFat16 (hplan : planEsp payloads = .ok plan) (time : BitVec 64) :
    (formatFat16 time plan : InstallProgram Empty Unit).Ends (fun e => ¬ e.IsValidation)
      fun _ => True := by
  obtain ⟨hfat, hdata, hsource, -, -⟩ := accepted_of_planEsp hplan
  obtain ⟨fatSectors, dataStart, files⟩ := plan
  obtain ⟨first, count, rfl⟩ : ∃ first count, files = payloads.installed first count :=
    exists_installed hsource
  obtain rfl : fatSectors = 128 := hfat
  obtain rfl : dataStart = 2337 := hdata
  have hwrites : ∀ ws, (writeSectors .block ws : InstallProgram Empty Unit).Ends
      (fun e => ¬ e.IsValidation) fun _ => True := ends_writeSectors fun _ => id
  rw [formatFat16_eq]
  refine (ends_writeSector (fun _ => id) _ _).bind fun _ _ => (hwrites _).bind fun _ _ =>
    (hwrites _).bind fun _ _ => (hwrites _).bind fun _ _ => (hwrites _).bind fun _ _ =>
    (hwrites _).bind fun _ _ => ?_
  generalize payloads.installed first count = files
  induction files with
  | nil => exact ends_pure trivial
  | cons file files ih => exact (hwrites _).bind fun _ _ => ih

theorem rejectsFirst_writeGpt (diskTime espTime dfsTime : BitVec 64) :
    (writeGpt N diskTime espTime dfsTime : InstallProgram Empty Unit).RejectsFirst
      InstallError.IsValidation := by
  rw [writeGpt]
  split
  · exact trivial
  · exact (ends_writeSectors (fun _ => id) _).rejectsFirst

/-- **The installation rejects first.** -/
theorem rejectsFirst_installConfigured :
    (Program.installConfigured pbkdf2 N tsc salt payloads accountConfig).RejectsFirst
      InstallError.IsValidation := by
  unfold Program.installConfigured
  split
  · exact trivial
  rename_i database plan hcheck
  obtain ⟨hvalid, hdatabase, -, hplan⟩ := checkInstall_eq_ok hcheck
  refine (rejectsFirst_writeGpt _ _ _).bind fun _ => (ends_formatFat16 hplan _).bind fun _ _ =>
    (ends_inside (fun _ => id) _ _).bind fun partition _ => (ends_formatDfs _ _).bind
    fun dfs _ => (ends_dfsProgram dfs _).bind fun _ _ => ?_
  cases accountConfig with
  | none => exact ends_flush fun _ => id
  | some config =>
    refine (ends_storeAccounts dfs ?_).bind fun _ _ => ends_flush fun _ => id
    rintro db rfl
    exact isSome_homePath (hvalid config rfl) (accountDatabase_eq_ok hdatabase).1

theorem rejectsFirst_installPrimaryMaster (backend : Program.Backend) :
    (Program.installPrimaryMaster pbkdf2 N tsc salt backend config).RejectsFirst
      InstallError.IsValidation := by
  unfold Program.installPrimaryMaster
  split
  · exact trivial
  · refine rejectsFirst_bind (writesIn_payload backend _) fun bootstrap =>
      rejectsFirst_bind (writesIn_payload backend _) fun dzImage =>
      rejectsFirst_bind (writesIn_payload backend _) fun efi =>
      rejectsFirst_bind (writesIn_payload backend _) fun config =>
      rejectsFirst_bind (writesIn_payload backend _) fun startup =>
      rejectsFirst_bind (writesIn_payload backend _) fun ramfsImage =>
      rejectsFirst_installConfigured

/-- Whatever the device is, and whatever it answers, the program has asked for no write when it
ends with an error about what it was given. -/
def RejectsBeforeWriting (m : InstallProgram Empty Unit) : Prop :=
  ∀ (σ : Type) (dev : Device σ Sector BlockError) (s : σ) (e : InstallError),
    (m.run.serve dev s).value = .error e → e.IsValidation → (m.run.serve dev s).writes = []

theorem RejectsFirst.beforeWriting {m : InstallProgram Empty Unit}
    (h : m.RejectsFirst InstallError.IsValidation) : RejectsBeforeWriting m := by
  intro σ dev s e hend he
  refine Prog.RejectsFirst.serve h ?_
  rw [hend]
  exact he

/-- **The installer rejects before it writes.** On every device, for all payloads and
configurations, an installation that is rejected has written no sector. -/
theorem rejected_before_writing
    (pbkdf2 : List UInt8 → Vector UInt8 16 → ℕ → Option (Vector UInt8 32)) (N : ℕ) (tsc : Tsc)
    (salt : Option (Vector UInt8 16)) :
    (∀ payloads accountConfig, RejectsBeforeWriting
      (Program.installConfigured pbkdf2 N tsc salt payloads accountConfig)) ∧
    (∀ payloads, RejectsBeforeWriting (Program.install pbkdf2 N tsc payloads)) ∧
    ∀ backend accountConfig, RejectsBeforeWriting
      (Program.installPrimaryMaster pbkdf2 N tsc salt backend accountConfig) := by
  refine ⟨fun payloads accountConfig => ?_, fun payloads => ?_, fun backend accountConfig => ?_⟩
  · exact RejectsFirst.beforeWriting rejectsFirst_installConfigured
  · exact RejectsFirst.beforeWriting rejectsFirst_installConfigured
  · exact RejectsFirst.beforeWriting (rejectsFirst_installPrimaryMaster backend)

example (pbkdf2 : List UInt8 → Vector UInt8 16 → ℕ → Option (Vector UInt8 32)) (σ : Type)
    (dev : Device σ Sector BlockError) (s : σ) :
    ((Program.install pbkdf2 100000 ⟨0, 0, 0, 0⟩ ⟨[98], [100], [114], [101], [99], [115]⟩).run.serve
      dev s).value = .error .diskTooSmall := rfl

end Rejected

end Installer

end ImagineOS
