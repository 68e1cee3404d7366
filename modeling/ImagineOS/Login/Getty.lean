import ImagineOS.Exec.Calls
import ImagineOS.Installer.Configure
import ImagineOS.Shell.Exports

/-!
# Login: the environment of the shell

After a login, `getty` starts a shell with three variables. It writes each of them into a buffer of
its own, and all but one of the buffers have room for whatever the kernel reports. The one for the
host name has 72 bytes, but `HOSTNAME=` and a host name of 64 bytes, which the installer takes, need
73. So a login works if and only if the host name that is reported is one byte shorter, is UTF-8,
and has no NUL (`ready_iff`, `longHostname_panics`).
-/

namespace ImagineOS

namespace Login

open Exec Installer Option

/-! ### Buffers -/

/-- `buffer[start..stop].copy_from_slice(source)`, or a panic. -/
def copyFromSlice (buffer : List UInt8) (start stop : ℕ) (source : List UInt8) :
    Option (List UInt8) :=
  if start ≤ stop ∧ stop ≤ buffer.length ∧ source.length = stop - start then
    some (buffer.take start ++ source ++ buffer.drop stop)
  else none

/-- `&buffer[..stop]`, or a panic. -/
def upTo (buffer : List UInt8) (stop : ℕ) : Option (List UInt8) :=
  if stop ≤ buffer.length then some (buffer.take stop) else none

/-- A name and a value, in a buffer of a size. -/
def nameValue (size : ℕ) (name : List UInt8) (value default : Str) : Option Str := do
  let buffer ← copyFromSlice (List.replicate size 0) 0 name.length name
  let buffer ← copyFromSlice buffer name.length (name.length + value.1.length) value.1
  return (fromUtf8 (← upTo buffer (name.length + value.1.length))).getD default

/-! ### Identities -/

/-- Bytes in an array, with zeros after them. -/
def padded (size : ℕ) (bytes : List UInt8) : Vector UInt8 size :=
  Vector.ofFn fun i => bytes.getD i 0

structure UserIdentity where
  uid : ℕ
  gid : ℕ
  isAdmin : Bool
  usernameLength : ℕ
  username : Vector UInt8 accountNameSize
  hostnameLength : ℕ
  hostname : Vector UInt8 hostnameSize

/-- `b"imagineos"` -/
def imagineos : Str := ⟨[105, 109, 97, 103, 105, 110, 101, 111, 115], by decide⟩

/-- The host name that is reported, when `file` is what `/etc/hostname` holds. -/
def reportedHostname (file : Option (List UInt8)) : List UInt8 :=
  match file with
  | none => imagineos.1
  | some text => (if text.getLast? = some 10 then text.dropLast else text).take hostnameSize

def currentIdentity (file : Option (List UInt8)) (s : System) : UserIdentity where
  uid := s.self.uid
  gid := s.self.gid
  isAdmin := s.self.isAdmin
  usernameLength := s.self.username.length
  username := padded accountNameSize s.self.username
  hostnameLength := (reportedHostname file).length
  hostname := padded hostnameSize (reportedHostname file)

/-! ### The environment -/

/-- `"root"` -/
def root : Str := ⟨rootName, by decide⟩

/-- `"/home"` -/
def home : Str := ⟨[47, 104, 111, 109, 101], by decide⟩

/-- `b"/home/"` -/
def homeSlash : List UInt8 := [47, 104, 111, 109, 101, 47]

/-- `b"USER="` -/
def userName : List UInt8 := [85, 83, 69, 82, 61]

/-- `b"HOSTNAME="` -/
def hostName : List UInt8 := [72, 79, 83, 84, 78, 65, 77, 69, 61]

/-- `b"HOME="` -/
def homeName : List UInt8 := [72, 79, 77, 69, 61]

/-- The path of the home directory. -/
def homePath (uid : ℕ) (username : Str) : Option Str := do
  let storage ← copyFromSlice (List.replicate 48 0) 0 6 homeSlash
  let length := if uid = 0 then 5 else 6 + username.1.length
  let storage ←
    if uid = 0 then copyFromSlice storage 0 5 home.1
    else copyFromSlice storage 6 length username.1
  return (fromUtf8 (← upTo storage length)).getD home

/-- The environment that `getty` prepares for an identity, if it does not panic. -/
def environmentOf (identity : UserIdentity) : Option (List Str) := do
  let hostname :=
    (fromUtf8 (← upTo identity.hostname.toList identity.hostnameLength)).getD imagineos
  let username := (fromUtf8 (← upTo identity.username.toList identity.usernameLength)).getD root
  let home ← homePath identity.uid username
  let userEnv ← nameValue 40 userName username ⟨userName ++ root.1, by decide⟩
  let hostEnv ← nameValue 72 hostName hostname ⟨hostName ++ imagineos.1, by decide⟩
  let homeEnv ← nameValue 56 homeName home ⟨homeName ++ Login.home.1, by decide⟩
  return [userEnv, hostEnv, homeEnv]

/-- `"/bin/shell"` -/
def shellPath : Str := ⟨[47, 98, 105, 110, 47, 115, 104, 101, 108, 108], by decide⟩

/-- `exec`, up to the system call, and then the copies that the kernel makes: all but the number of
the call is that of `execve`. -/
def execAccepts {memory : Shell.Memory} (path : Shell.Slice memory)
    (arguments environment : List (Shell.Slice memory)) : Bool :=
  Shell.accepts path arguments environment

/-- The home directory of who was reported. -/
def homeOf (uid : ℕ) (username : List UInt8) : List UInt8 :=
  if uid = 0 then home.1 else homeSlash ++ username

/-- **The shell gets what was reported**: nothing panics, the strings are a name and a value each,
and they are taken, wherever they are in memory. -/
structure Ready (identity : UserIdentity) (username hostname : List UInt8)
    (environment : List Str) : Prop where
  prepared : environmentOf identity = some environment
  exact : environment.map Subtype.val =
    [userName ++ username, hostName ++ hostname, homeName ++ homeOf identity.uid username]
  accepted : ∀ (memory : Shell.Memory) (path : Shell.Slice memory)
    (arguments strings : List (Shell.Slice memory)), path.text = shellPath →
    arguments.map Shell.Slice.text = [shellPath] → strings.map Shell.Slice.text = environment →
    execAccepts path arguments strings

/-- **The condition** on a host name. -/
def Fits (hostname : List UInt8) : Prop :=
  hostname.length ≤ 63 ∧ validUtf8 hostname ∧ 0 ∉ hostname

instance (hostname : List UInt8) : Decidable (Fits hostname) :=
  inferInstanceAs (Decidable (_ ∧ _ ∧ _))

/-! ### One variable -/

section Buffers

variable {size : ℕ} {bytes b rest source name : List UInt8} {value : Str}

theorem copyFromSlice_append (h : source.length ≤ rest.length) :
    copyFromSlice (b ++ rest) b.length (b.length + source.length) source =
      some (b ++ source ++ rest.drop source.length) := by
  rw [copyFromSlice, if_pos ⟨Nat.le_add_right _ _, by rw [List.length_append]; omega, by omega⟩,
    List.take_left, List.drop_append, List.drop_eq_nil_of_le (by omega), List.nil_append,
    Nat.add_sub_cancel_left]

theorem copyFromSlice_overflow {start stop : ℕ} (h : bytes.length < stop) :
    copyFromSlice bytes start stop source = none :=
  if_neg fun hle => absurd hle.2.1 (Nat.not_le.mpr h)

theorem upTo_append : upTo (b ++ rest) b.length = some b := by
  rw [upTo, if_pos (by simp), List.take_left]

theorem upTo_padded (h : bytes.length ≤ size) :
    upTo (padded size bytes).toList bytes.length = some bytes := by
  rw [upTo, if_pos (by simpa using h)]
  refine congrArg some (List.ext_getElem (by simpa using h) fun i h₁ h₂ => ?_)
  simp [padded, List.getElem?_eq_getElem h₂]

theorem fromUtf8_eq (h : validUtf8 bytes) : fromUtf8 bytes = some ⟨bytes, h⟩ := dif_pos h

/-- **One variable** is written if there is room for it. -/
theorem nameValue_eq (hname : ∀ b ∈ name, b < 0x80) (hsize : name.length ≤ size) (default : Str) :
    nameValue size name value default =
      if name.length + value.1.length ≤ size then
        some ⟨name ++ value.1, (validUtf8_ascii_append hname value.1).trans value.2⟩
      else none := by
  have hfirst : copyFromSlice (List.replicate size 0) 0 name.length name =
      some (name ++ List.replicate (size - name.length) 0) := by
    have hroom : name.length ≤ (List.replicate size (0 : UInt8)).length := by simpa using hsize
    simpa using copyFromSlice_append (b := []) hroom
  simp only [nameValue, hfirst, bind_eq_bind, bind_some]
  split
  · rename_i hroom
    rw [copyFromSlice_append (by rw [List.length_replicate]; omega), bind_some,
      ← List.length_append, upTo_append, bind_some,
      fromUtf8_eq ((validUtf8_ascii_append hname value.1).trans value.2)]
    rfl
  · rename_i hroom
    rw [copyFromSlice_overflow (by simp; omega)]
    rfl

end Buffers

/-! ### What `getty` prepares -/

/-- A name that has room in the buffers, and whose bytes are ASCII and no NULs. -/
def Plain (username : List UInt8) : Prop :=
  username.length ≤ accountNameSize ∧ ∀ b ∈ username, 0 < b ∧ b < 0x80

section Environment

variable {uid : ℕ} {username hostname : List UInt8}

theorem ascii_homeSlash : ∀ b ∈ homeSlash, b < 0x80 := by decide +kernel

theorem Plain.validUtf8 (h : Plain username) : validUtf8 username :=
  validUtf8_ascii fun b hb => (h.2 b hb).2

theorem Plain.validUtf8_homeOf (h : Plain username) :
    ImagineOS.validUtf8 (homeOf uid username) := by
  rw [homeOf]
  split
  · exact home.2
  · exact (validUtf8_ascii_append ascii_homeSlash username).trans h.validUtf8

theorem homePath_eq (h : Plain username) :
    homePath uid ⟨username, h.validUtf8⟩ = some ⟨homeOf uid username, h.validUtf8_homeOf⟩ := by
  by_cases huid : uid = 0
  · subst huid
    rfl
  · have hstart : copyFromSlice (List.replicate 48 0) 0 6 homeSlash =
        some (homeSlash ++ List.replicate 42 0) := rfl
    have hroom : username.length ≤ (List.replicate 42 (0 : UInt8)).length :=
      h.1.trans (by decide)
    have hname : copyFromSlice (homeSlash ++ List.replicate 42 0) 6 (6 + username.length) username =
        some (homeSlash ++ username ++ (List.replicate 42 0).drop username.length) :=
      copyFromSlice_append (b := homeSlash) hroom
    have hlength : 6 + username.length = (homeSlash ++ username).length := by
      rw [List.length_append]
      rfl
    simp only [homePath, hstart, bind_eq_bind, bind_some, if_neg huid, hname]
    rw [hlength, upTo_append, bind_some,
      fromUtf8_eq ((validUtf8_ascii_append ascii_homeSlash username).trans h.validUtf8)]
    simp only [homeOf, if_neg huid]
    rfl

/-- The host name that `getty` uses. -/
def usedHostname (hostname : List UInt8) : Str := (fromUtf8 hostname).getD imagineos

theorem usedHostname_eq (h : validUtf8 hostname) : usedHostname hostname = ⟨hostname, h⟩ := by
  rw [usedHostname, fromUtf8_eq h]
  rfl

theorem length_homeOf_le (h : Plain username) : (homeOf uid username).length ≤ 38 := by
  have hlength : username.length ≤ 32 := h.1
  rw [homeOf]
  split
  · decide
  · rw [List.length_append]
    exact Nat.add_le_add_left hlength 6

/-- **The environment** is prepared if there is room for the host name. -/
theorem environmentOf_eq (identity : UserIdentity) (hplain : Plain username)
    (hhost : hostname.length ≤ hostnameSize)
    (hname : identity.username = padded accountNameSize username)
    (hnameLength : identity.usernameLength = username.length)
    (hhostname : identity.hostname = padded hostnameSize hostname)
    (hhostnameLength : identity.hostnameLength = hostname.length) :
    (environmentOf identity).map (·.map Subtype.val) =
      if (usedHostname hostname).1.length ≤ 63 then
        some [userName ++ username, hostName ++ (usedHostname hostname).1,
          homeName ++ homeOf identity.uid username]
      else none := by
  have hlength : username.length ≤ 32 := hplain.1
  have hhome : (homeOf identity.uid username).length ≤ 38 := length_homeOf_le hplain
  simp only [environmentOf, hname, hnameLength, hhostname, hhostnameLength, upTo_padded hhost,
    upTo_padded hplain.1, bind_eq_bind, bind_some, fromUtf8_eq hplain.validUtf8,
    getD_some, homePath_eq hplain]
  rw [nameValue_eq (by decide +kernel) (by decide +kernel),
    nameValue_eq (by decide +kernel) (by decide +kernel),
    nameValue_eq (by decide +kernel) (by decide +kernel)]
  have huserRoom : userName.length + username.length ≤ 40 := by
    have hfive : userName.length = 5 := rfl
    omega
  have hhomeRoom : homeName.length + (homeOf identity.uid username).length ≤ 56 := by
    have hfive : homeName.length = 5 := rfl
    omega
  have hnine : hostName.length = 9 := rfl
  rw [if_pos huserRoom, if_pos hhomeRoom, bind_some]
  by_cases hroom : (usedHostname hostname).1.length ≤ 63
  · have hhostRoom : hostName.length + (usedHostname hostname).1.length ≤ 72 := by omega
    rw [if_pos hroom]
    rw [usedHostname] at hhostRoom ⊢
    rw [if_pos hhostRoom]
    rfl
  · have hhostRoom : ¬ hostName.length + (usedHostname hostname).1.length ≤ 72 := by omega
    rw [if_neg hroom]
    rw [usedHostname] at hhostRoom
    rw [if_neg hhostRoom]
    rfl

end Environment

/-! ### Who has logged in -/

section Login

variable {derive : List UInt8 → Vector UInt8 16 → ℕ → Option (Vector UInt8 32)}
  {pbkdf2 : List UInt8 → List UInt8 → ℕ → Option (List UInt8)} {salt : Option (Vector UInt8 16)}
  {config : InstallConfig} {database : Option (List UInt8)} {username password : List UInt8}
  {s s' : System} {account : Account}

theorem plain_of_isUsernameByte {b : UInt8} (h : isUsernameByte b = true) : 0 < b ∧ b < 0x80 := by
  simp only [isUsernameByte, isAsciiLowercase, isAsciiDigit, Bool.or_eq_true, decide_eq_true_eq,
    beq_iff_eq, UInt8.le_iff_toNat_le, ← UInt8.toNat_inj] at h
  simp only [UInt8.lt_iff_toNat_lt]
  simp at h ⊢
  omega

theorem accepted_username (h : validateInstallConfig config = true) (hadd : ¬ config.addUser = 0) :
    config.usernameLength.toNat ≤ accountNameSize ∧
      ∀ b ∈ config.usernameBytes, 0 < b ∧ b < 0x80 := by
  simp only [validateInstallConfig, if_neg hadd] at h
  split_ifs at h with hlengths hhostname
  simp only [not_or, not_lt] at hlengths
  simp only [not_or, decide_eq_true_eq, not_not, List.all_eq_true] at h
  exact ⟨hlengths.2.1, fun b hb => plain_of_isUsernameByte (h.2.2.1 b hb)⟩

/-- The name of the account that the installer makes. -/
theorem username_of_makeDatabase {bytes : List UInt8}
    (h : makeDatabase derive salt config = some bytes)
    (haccount : decodeAccount bytes = some account) :
    account.username = config.usernameBytes ∧ Plain config.usernameBytes := by
  simp only [makeDatabase] at h
  split at h
  · cases h
  rename_i hvalid
  rw [not_or, not_not] at hvalid
  obtain ⟨salt, -, h⟩ := bind_eq_some_iff.mp h
  obtain ⟨hash, -, h⟩ := bind_eq_some_iff.mp h
  have hbytes := Option.some.inj h
  have haccepted := accepted_username hvalid.1 hvalid.2
  have hle : config.usernameLength.toNat ≤ 32 := haccepted.1
  have hlength : config.usernameBytes.length = config.usernameLength.toNat := by
    simpa [InstallConfig.usernameBytes] using hle
  -- The name comes after 68 bytes.
  obtain ⟨front, hfront, hsplit⟩ : ∃ front : List UInt8, front.length = 68 ∧
      bytes = front ++ (config.usernameBytes ++
        List.replicate (32 - config.usernameBytes.length) 0) :=
    ⟨databaseMagic ++ [config.usernameLength, config.administrator, 0, 0] ++ leBytes 4 1000 ++
      leBytes 4 1000 ++ salt.toList ++ hash.toList, by simp [databaseMagic],
      by rw [← hbytes, ← List.append_assoc]⟩
  have hfield : field bytes 68 100 =
      config.usernameBytes ++ List.replicate (32 - config.usernameBytes.length) 0 := by
    have hall : bytes.take 100 = bytes := List.take_of_length_le (by
      rw [hsplit]
      simp only [List.length_append, List.length_replicate, hfront]
      omega)
    rw [field, hall, hsplit, ← hfront, List.drop_left]
  have hcount : bytes.getD 8 0 = config.usernameLength := by
    rw [← hbytes]
    rfl
  simp only [decodeAccount] at haccount
  split_ifs at haccount
  obtain rfl := Option.some.inj haccount
  refine ⟨?_, hlength.trans_le haccepted.1, haccepted.2⟩
  simp only [hfield, hcount, ← hlength, List.take_left]

/-- The name of who has logged in. -/
theorem plain_of_authenticateCurrent
    (hdatabase : accountDatabase derive salt (some config) = .ok database)
    (hauth : authenticateCurrent pbkdf2 database username password (2 ^ 32 - 1) s = (0, s')) :
    Plain s'.self.username := by
  have haccount : ∀ {account : Account}, authenticate pbkdf2 database username password =
      some account → Plain account.username := by
    intro account h
    rw [authenticate] at h
    split at h
    · split at h
      · obtain rfl := Option.some.inj h
        exact ⟨by decide +kernel, by decide +kernel⟩
      · cases h
    · obtain ⟨bytes, hbytes, h⟩ := bind_eq_some_iff.mp h
      obtain ⟨decoded, hdecode, h⟩ := bind_eq_some_iff.mp h
      split at h
      · obtain rfl := Option.some.inj h
        -- There is a database, so it is the one of the configuration.
        rw [accountDatabase] at hdatabase
        split at hdatabase
        · cases hdatabase
          cases hbytes
        · split at hdatabase
          · cases hdatabase
          · rename_i made hmade
            cases hdatabase
            obtain rfl := Option.some.inj hbytes
            obtain ⟨hname, hplain⟩ := username_of_makeDatabase hmade hdecode
            exact hname ▸ hplain
      · cases h
  have htarget : ¬ (2 ^ 32 - 1 = 0 ∧ username = s.self.username ∧ s.self.uid ≠ 0) := fun h =>
    absurd h.1 (by decide)
  rw [authenticateCurrent, if_neg htarget] at hauth
  split at hauth
  · cases hauth
  · rename_i account hsome
    rw [if_neg fun h => h.1 rfl] at hauth
    cases hauth
    rw [System.self_setSelf]
    exact haccount hsome

end Login

/-! ### The strings in memory -/

section Ready

variable {derive : List UInt8 → Vector UInt8 16 → ℕ → Option (Vector UInt8 32)}
  {pbkdf2 : List UInt8 → List UInt8 → ℕ → Option (List UInt8)} {salt : Option (Vector UInt8 16)}
  {config : InstallConfig} {database file : Option (List UInt8)} {username password : List UInt8}
  {s s' : System} {environment : List Str}

theorem exists_slices {memory : Shell.Memory} (texts : List Str) (front : List UInt8)
    (h : ∀ a, memory a = (front ++ texts.flatMap Subtype.val)[a]?) :
    ∃ slices : List (Shell.Slice memory), slices.map Shell.Slice.text = texts := by
  induction texts generalizing front with
  | nil => exact ⟨[], rfl⟩
  | cons text texts ih =>
    have hstored : ∀ i (hi : i < text.1.length), memory (front.length + i) = some text.1[i] := by
      intro i hi
      rw [h, List.flatMap_cons, List.getElem?_append_right (Nat.le_add_right _ _),
        Nat.add_sub_cancel_left, List.getElem?_append_left hi, List.getElem?_eq_getElem hi]
    obtain ⟨slices, hslices⟩ := ih (front ++ text.1) fun a => by
      rw [h, List.flatMap_cons, List.append_assoc]
    exact ⟨⟨front.length, text, hstored⟩ :: slices, by rw [List.map_cons, hslices]⟩

theorem passes_of_accepted (h : ∀ (memory : Shell.Memory) (path : Shell.Slice memory)
      (arguments strings : List (Shell.Slice memory)), path.text = shellPath →
      arguments.map Shell.Slice.text = [shellPath] → strings.map Shell.Slice.text = environment →
      execAccepts path arguments strings) :
    ∀ text ∈ environment, Shell.Passes text := by
  let memory : Shell.Memory := fun a => ((shellPath :: environment).flatMap Subtype.val)[a]?
  obtain ⟨slices, hslices⟩ : ∃ slices : List (Shell.Slice memory),
      slices.map Shell.Slice.text = shellPath :: environment :=
    exists_slices (shellPath :: environment) [] fun _ => rfl
  obtain ⟨path, strings, rfl, hpath, hstrings⟩ := List.map_eq_cons_iff.mp hslices
  have htaken := h _ path [path] strings hpath (by rw [List.map_singleton, hpath]) hstrings
  have hacceptable := Shell.accepts_iff.mp htaken
  rw [hstrings] at hacceptable
  exact hacceptable.environment_pass

theorem passes_of_eq {text : Str} {name value : List UInt8} (h : text.1 = name ++ value)
    (hname : name.length ≤ 9) (hnameNul : 0 ∉ name) (hvalue : value.length ≤ 63)
    (hvalueNul : 0 ∉ value) : Shell.Passes text := by
  have hlength : name.length + value.length ≤ 128 :=
    (Nat.add_le_add hname hvalue).trans (by decide)
  rw [Shell.Passes, h, List.length_append]
  exact ⟨hlength, List.not_mem_append hnameNul hvalueNul⟩

/-- **Headline.** After a login, the shell gets what was reported if and only if the host name is
not too long, is UTF-8, and has no NUL. -/
theorem ready_iff (hdatabase : accountDatabase derive salt (some config) = .ok database)
    (hauth : authenticateCurrent pbkdf2 database username password (2 ^ 32 - 1) s = (0, s')) :
    (∃ environment, Ready (currentIdentity file s') s'.self.username (reportedHostname file)
      environment) ↔ Fits (reportedHostname file) := by
  have hplain := plain_of_authenticateCurrent hdatabase hauth
  have hhost : (reportedHostname file).length ≤ hostnameSize := by
    unfold reportedHostname
    split
    · decide
    · exact List.length_take_le _ _
  have henvironment := environmentOf_eq (currentIdentity file s') hplain hhost rfl rfl rfl rfl
  constructor
  · rintro ⟨environment, hprepared, hexact, haccepted⟩
    rw [hprepared] at henvironment
    split at henvironment
    · rename_i hlength
      have hused : usedHostname (reportedHostname file) = reportedHostname file := by
        have hlists := hexact.symm.trans (Option.some.inj henvironment)
        simp only [List.cons.injEq, List.append_cancel_left_eq, and_true, true_and] at hlists
        exact hlists.symm
      have hmem : ∃ text ∈ environment, text.1 = hostName ++ reportedHostname file := by
        have hmem : hostName ++ reportedHostname file ∈ environment.map Subtype.val := by
          rw [hexact]
          simp
        exact List.mem_map.mp hmem
      obtain ⟨text, htext, heq⟩ := hmem
      have hpasses := (passes_of_accepted haccepted text htext).2
      rw [heq] at hpasses
      refine ⟨hused ▸ hlength, hused ▸ (usedHostname _).2, fun hnul => hpasses ?_⟩
      exact List.mem_append_right _ hnul
    · cases henvironment
  · rintro ⟨hlength, hvalid, hnul⟩
    rw [usedHostname_eq hvalid, if_pos hlength] at henvironment
    obtain ⟨environment, hprepared, hexact⟩ := Option.map_eq_some_iff.mp henvironment
    refine ⟨environment, hprepared, hexact, fun memory path arguments strings hpath harguments
      hstrings => Shell.accepts_iff.mpr ?_⟩
    have hshell : Shell.Passes shellPath := by decide
    have hpasses : ∀ text ∈ environment, Shell.Passes text := fun text htext => by
      have hmem : text.1 ∈ environment.map Subtype.val := List.mem_map_of_mem htext
      have hname : s'.self.username.length ≤ 32 := hplain.1
      have hnoNul : 0 ∉ s'.self.username := fun h => absurd (hplain.2 0 h).1 (by decide)
      have hhome : (homeOf s'.self.uid s'.self.username).length ≤ 38 := length_homeOf_le hplain
      have hhomeNul : 0 ∉ homeOf s'.self.uid s'.self.username := by
        rw [homeOf]
        split
        · decide
        · exact List.not_mem_append (by decide) hnoNul
      rw [hexact] at hmem
      rcases List.mem_cons.mp hmem with heq | hmem
      · exact passes_of_eq heq (by decide) (by decide) (hname.trans (by decide)) hnoNul
      · rcases List.mem_cons.mp hmem with heq | hmem
        · exact passes_of_eq heq (by decide) (by decide) hlength hnul
        · exact passes_of_eq (List.mem_singleton.mp hmem) (by decide) (by decide)
            (hhome.trans (by decide)) hhomeNul
    have hthree : environment.length = 3 := by
      rw [← List.length_map (f := Subtype.val), hexact]
      rfl
    rw [hpath, harguments, hstrings]
    exact ⟨by decide, hshell, by decide, by simpa using hshell, by rw [hthree]; decide, hpasses⟩

end Ready

/-! ### Two logins -/

/-- A configuration without a user, and with a host name of some letters `a`. -/
def hostConfig (length : UInt8) : InstallConfig where
  usernameLength := 0
  passwordLength := 0
  hostnameLength := length
  addUser := 0
  administrator := 0
  username := Vector.replicate 32 0
  password := Vector.replicate 64 0
  hostname := Vector.replicate 64 97

/-- `root` logs in. -/
def rootLogin : ℤ × System :=
  authenticateCurrent (fun _ _ _ => none) none rootName rootName (2 ^ 32 - 1) .boot

theorem rootLogin_eq : rootLogin = (0, rootLogin.2) := Prod.ext (by decide +kernel) rfl

/-- `root` logs in where the host name has 63 bytes. -/
theorem ready_iff_sample :
    ∃ environment, Ready (currentIdentity (some (Installer.hostname (hostConfig 63))) rootLogin.2)
      rootLogin.2.self.username (reportedHostname (some (Installer.hostname (hostConfig 63))))
      environment := by
  have hdatabase : accountDatabase (fun _ _ _ => none) none (some (hostConfig 63)) = .ok none := rfl
  exact (ready_iff hdatabase rootLogin_eq).mpr (by decide +kernel)

/-- `getty` panics where the host name has 64 bytes, as one that is accepted may have. -/
theorem longHostname_panics :
    validateInstallConfig (hostConfig 64) = true ∧ rootLogin.1 = 0 ∧
      environmentOf (currentIdentity (some (Installer.hostname (hostConfig 64))) rootLogin.2) =
        none ∧
      ¬ ∃ environment,
        Ready (currentIdentity (some (Installer.hostname (hostConfig 64))) rootLogin.2)
          rootLogin.2.self.username (reportedHostname (some (Installer.hostname (hostConfig 64))))
          environment := by
  have hpanics : environmentOf (currentIdentity (some (Installer.hostname (hostConfig 64)))
      rootLogin.2) = none := by decide +kernel
  refine ⟨by decide +kernel, by decide +kernel, hpanics, fun ⟨environment, h⟩ => ?_⟩
  exact absurd (hpanics.symm.trans h.prepared) (by simp)

end Login

end ImagineOS
