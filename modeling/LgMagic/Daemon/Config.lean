import LgMagic.Lib.Posix
import LgMagic.Profiles
import LgMagic.Toml.Writer

/-!
# The daemon's configuration files

Loading and saving of `daemon_config.c`: the device files under `devices.d` and the store
`state.toml` of the active profiles. Loading reads the files as they are; saving is a program of
system calls that may fail or crash.

* `pathJoin`, `devicePath`, `statePath`;
* `daemonConfigLoadRemote`: the configuration of a remote;
* `atomicWriteFile`: replace a file through a temporary one;
* `daemonConfigSaveProfile`, `daemonConfigSaveDevice`;
* `daemonConfigCalibPath`.
-/

namespace Daemon

open CString Toml Binary64 Posix Profiles

/-- The directories of `struct daemon_config`. -/
structure DaemonConfig where
  configRoot : CStr
  stateDir : CStr

/-- `DEFAULT_CONFIG_ROOT` and `DEFAULT_STATE_DIR` -/
def defaultDirs : DaemonConfig := ⟨.lit "/etc/lgmagic", .lit "/var/lib/lgmagic"⟩

/-! ## Paths -/

/-- The size of the path buffers. -/
def pathSize : ℕ := 4096

/-- `path_join`; `none` when the result does not fit. -/
def pathJoin (outsz : ℕ) (a b : CStr) : Option CStr :=
  if a.val.length + b.val.length + 1 > outsz then none else some (a ++ b)

theorem pathJoin_eq_some {n : ℕ} {a b c : CStr} :
    pathJoin n a b = some c ↔ a.val.length + b.val.length + 1 ≤ n ∧ a ++ b = c := by
  unfold pathJoin
  split_ifs with h
  · simp [Nat.not_le.mpr h]
  · simp [Nat.not_lt.mp h]

/-- The bytes of both parts are in the result. -/
theorem mem_of_pathJoin {n : ℕ} {a b c : CStr} (h : pathJoin n a b = some c) {x : UInt8}
    (hx : x ∈ a.val ∨ x ∈ b.val) : x ∈ c.val := by
  rw [← (pathJoin_eq_some.mp h).2]
  simpa using hx

/-- The path of a remote's device file. -/
def devicePath (dc : DaemonConfig) (identity : CStr) : Option CStr := do
  let path ← pathJoin pathSize dc.configRoot (.lit "/devices.d/")
  let path ← pathJoin pathSize path identity
  pathJoin pathSize path (.lit ".toml")

/-- The path of `state.toml`. -/
def statePath (dc : DaemonConfig) : Option CStr := pathJoin pathSize dc.stateDir (.lit "/state.toml")

/-! ## Loading -/

/-- `toml_table_get_str` for a key that is one bare word. -/
def tableGetStr (v : TomlValue) (key : CStr) : Option CStr :=
  match v with
  | .table t =>
    match tableGetShort t key with
    | some (.str s) => some s
    | _ => none
  | _ => none

/-- The active profile that `state.toml` names for a remote. -/
def stateProfile (root : Members) (identity : CStr) : Option CStr :=
  match tableGetShort root (.lit "devices") with
  | some (.table devs) => (tableGetShort devs identity).bind fun dev => tableGetStr dev (.lit "profile")
  | _ => none

/-- `toml_load_file` where the errors are not asked for. -/
def tomlLoadFile (file : Option Bytes) : Option Members := file.bind fun text =>
  (tomlParse text).toOption

/-- `daemon_config_load_remote`: the outcome and the configuration as it was left. -/
def daemonConfigLoadRemote (dc : DaemonConfig) (fs : CStr → Option Bytes) (identity : CStr) :
    Except Bytes Unit × DeviceConfig Double :=
  match devicePath dc identity with
  | none => (.error (ascii "device config path too long"), deviceConfigInit)
  | some path =>
    match deviceConfigLoadFile path (fs path) deviceConfigInit with
    | (.error e, out) => (.error e, out)
    | (.ok _, out) =>
      match statePath dc with
      | none => (.error (ascii "state path too long"), out)
      | some path =>
        let profile := (tomlLoadFile (fs path)).bind fun root => stateProfile root identity
        (.ok (), { out with profile := profile.getD out.profile })

/-- `daemon_config_calib_path`; empty when it does not fit. -/
def daemonConfigCalibPath (dc : DaemonConfig) (d : DeviceConfig Double) (identity : CStr)
    (outsz : ℕ) : CStr :=
  match d.calib with
  | some calib => (pathJoin outsz calib .empty).getD .empty
  | none =>
    (do
      let path ← pathJoin outsz dc.stateDir (.lit "/")
      let path ← pathJoin outsz path identity
      pathJoin outsz path (.lit "/calibration.json")).getD .empty

/-! ## Saving -/

/-- The errors of saving. -/
inductive SaveError
  | statePathTooLong
  | devicePathTooLong
  | filePathTooLong
  | cannotCreate (dir : CStr)
  | cannotOpen (tmp : CStr)
  | writeError (tmp : CStr)
  | closeError (tmp : CStr)
  | cannotRename (tmp path : CStr)
  | outOfMemory
  deriving DecidableEq

/-- The message of an error; the system's own message goes in where the code prints it. -/
def SaveError.text (strerror : Bytes) : SaveError → Bytes
  | .statePathTooLong => ascii "state path too long"
  | .devicePathTooLong => ascii "device config path too long"
  | .filePathTooLong => ascii "state file path too long"
  | .cannotCreate dir => ascii "cannot create " ++ dir.val ++ ascii ": " ++ strerror
  | .cannotOpen tmp => ascii "cannot open " ++ tmp.val ++ ascii ": " ++ strerror
  | .writeError tmp => ascii "write error on " ++ tmp.val ++ ascii ": " ++ strerror
  | .closeError tmp => ascii "close error on " ++ tmp.val ++ ascii ": " ++ strerror
  | .cannotRename tmp path =>
    ascii "cannot rename " ++ tmp.val ++ ascii " to " ++ path.val ++ ascii ": " ++ strerror
  | .outOfMemory => ascii "out of memory"

/-- The directories `mkdir_p` creates for a path, without a slash at its end: every prefix up to a
slash and the path itself. -/
def mkdirPrefixes (dir : CStr) : List CStr :=
  let tmp := dir.val.take (pathSize - 1)
  let tmp := if tmp.getLast? = some 0x2F then tmp.dropLast else tmp
  let slashes := (List.range tmp.length).filter fun i => 1 ≤ i && tmp[i]? == some 0x2F
  (slashes.map fun i => CStr.ofBuffer (tmp.take i)) ++ [CStr.ofBuffer tmp]

/-- Create directories that may be there already. -/
def mkdirs : List CStr → Sys (Except SaveError Unit)
  | [] => pure (.ok ())
  | dir :: dirs => do
    let r ← mkdir dir
    if r = Created.failed then return .error (.cannotCreate dir) else mkdirs dirs

/-- `mkdir_p` -/
def mkdirP (dir : CStr) : Sys (Except SaveError Unit) := mkdirs (mkdirPrefixes dir)

/-- Open the temporary file; a stale one is removed first. -/
def openTmp (tmp : CStr) : Sys Bool := do
  match ← openExcl tmp with
  | .ok => return true
  | .failed => return false
  | .exists =>
    if ← unlink tmp then
      let r ← openExcl tmp
      return r = Created.ok
    else return false

/-- Write and synchronise the data, whether all of it was. -/
def writeSync (tmp text : CStr) : Sys Bool := do
  let n ← write tmp text.val
  if n = some text.val.length then fsync tmp else return false

/-- `atomic_write_file` -/
def atomicWriteFile (path text : CStr) : Sys (Except SaveError Unit) :=
  match pathJoin pathSize path (.lit ".tmp") with
  | none => return .error .filePathTooLong
  | some tmp => do
    if ← openTmp tmp then
      if ← writeSync tmp text then
        if ← close tmp then
          if ← rename tmp path then return .ok ()
          else
            let _ ← unlink tmp
            return .error (.cannotRename tmp path)
        else
          let _ ← unlink tmp
          return .error (.closeError tmp)
      else
        let _ ← close tmp
        let _ ← unlink tmp
        return .error (.writeError tmp)
    else return .error (.cannotOpen tmp)

/-- A table member that is created when it is missing. -/
def ensureTable (t : Members) (key : CStr) : Option (Members × Members) :=
  match tableGetShort t key with
  | some (.table sub) => some (t, sub)
  | _ => (tableAdd t key (.table [])).map fun t => (t, [])

/-- The tree of `state.toml` after a remote's profile was set in it. -/
def setStateProfile (root : Members) (identity profile : CStr) : Option Members := do
  let (root, devs) ← ensureTable root (.lit "devices")
  let (devs, dev) ← ensureTable devs identity
  let dev := tableSetStr dev (.lit "profile") profile
  return Assoc.set root (.lit "devices") (.table (Assoc.set devs identity (.table dev)))

/-- The tree of a new `state.toml`. -/
def newState : Members := [(.lit "version", .int 2)]

/-- `daemon_config_save_profile` -/
def daemonConfigSaveProfile (dc : DaemonConfig) (identity profile : CStr) :
    Sys (Except SaveError Unit) :=
  match statePath dc with
  | none => return .error .statePathTooLong
  | some path => do
    let file ← readFile path
    let root := (tomlLoadFile file).getD newState
    match (setStateProfile root identity profile).bind fun root => tomlDumps (.table root) with
    | none => return .error .outOfMemory
    | some text =>
      match ← mkdirP dc.stateDir with
      | .error e => return .error e
      | .ok () => atomicWriteFile path text

/-- `daemon_config_save_device` -/
def daemonConfigSaveDevice (dc : DaemonConfig) (d : DeviceConfig Double) (identity : CStr) :
    Sys (Except SaveError Unit) :=
  match devicePath dc identity with
  | none => return .error .devicePathTooLong
  | some path =>
    match (deviceConfigToToml d).bind fun root => tomlDumps (.table root) with
    | none => return .error .outOfMemory
    | some text =>
      match pathJoin pathSize dc.configRoot (.lit "/devices.d") with
      | none => return .error .devicePathTooLong
      | some dir => do
        match ← mkdirP dir with
        | .error e => return .error e
        | .ok () => atomicWriteFile path text

end Daemon
