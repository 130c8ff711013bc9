import LgMagic.Daemon.Identity
import LgMagic.Daemon.Polkit

/-!
# The bus interface

The methods that the daemon answers over the system bus: what they check, what they save, and what
becomes of the configuration and of the pipeline of a remote. A method that changes something asks
for authorization first, saves, and applies what was saved; where the save fails the configuration
is read again from the disk. Part of `daemon_bus.c`.

* `Request`, `handleRequest`: the methods;
* `mutateAndSave`, `remoteRollback`, `remoteApply`: a change of a configuration;
* `daemonDevicesReload`: all configurations read again.
-/

namespace Daemon

open Binary64 CString Keymap Posix Printf Profiles

/-! ## Remotes -/

/-- `find_remote`: the first remote with an identity, and its place. -/
def findRemote (dd : DaemonDevices) (mac : CStr) : Option (ℕ × DaemonRemote) :=
  (dd.remotes.findIdx? (·.identity = mac)).bind fun i => dd.remotes[i]?.map fun r => (i, r)

/-- A daemon with another state of one remote. -/
def DaemonDevices.setRemote (dd : DaemonDevices) (i : ℕ) (r : DaemonRemote) : DaemonDevices :=
  { dd with remotes := dd.remotes.set i r }

/-- The descriptor of the virtual keyboard, `-1` without one. -/
def DaemonRemote.kbdUinputFd (r : DaemonRemote) : ℤ :=
  match r.kbdUinput with
  | some fd => fd
  | none => -1

/-- `pipeline_configure` for a remote with a configuration. -/
def configureRemote (dd : DaemonDevices) (r : DaemonRemote) (dc : DeviceConfig Double) :
    Bus DaemonRemote := do
  let calib := daemonConfigCalibPath dd.config dc r.identity 4096
  let loaded ← if calib = .empty then pure (.error []) else busCall (.calibLoad calib)
  return { r with
    dc := dc
    pl := (pipelineConfigure (fun _ => loaded) r.pl dc calib dd.global r.kbdUinputFd).2.1 }

/-- `remote_apply` -/
def remoteApply (dd : DaemonDevices) (r : DaemonRemote) : Bus DaemonRemote :=
  configureRemote dd r r.dc

/-- `daemon_config_load_remote` on the files as they are. -/
def loadRemote (dc : DaemonConfig) (identity : CStr) : Sys (Except Bytes Unit × DeviceConfig Double) :=
  match devicePath dc identity with
  | none => return daemonConfigLoadRemote dc (fun _ => none) identity
  | some path => do
    let device ← readFile path
    match statePath dc with
    | none => return daemonConfigLoadRemote dc (fun _ => device) identity
    | some store =>
      let state ← readFile store
      return daemonConfigLoadRemote dc (fun p => if p = path then device else state) identity

/-- `remote_rollback`: a configuration that cannot be loaded stays as far as it was. -/
def remoteRollback (dd : DaemonDevices) (r : DaemonRemote) : Bus DaemonRemote := do
  let (_, fresh) ← liftSys (loadRemote dd.config r.identity)
  remoteApply dd { r with dc := fresh }

/-- `mutate_and_save` -/
def mutateAndSave (dd : DaemonDevices) (r : DaemonRemote)
    (mutate : DeviceConfig Double → DeviceConfig Double) :
    Bus (Except SaveError Unit × DaemonRemote) := do
  let r := { r with dc := mutate r.dc }
  match ← liftSys (daemonConfigSaveDevice dd.config r.dc r.identity) with
  | .error e => return (.error e, ← remoteRollback dd r)
  | .ok () => return (.ok (), ← remoteApply dd r)

/-! ## Mutations -/

/-- Change the active profile, which is made where it is missing. -/
def mutateActive (f : Profile Double → Profile Double) (dc : DeviceConfig Double) :
    DeviceConfig Double :=
  let dc := deviceConfigProfileEnsure dc dc.profile
  { dc with profiles := updateProfile dc.profile f dc.profiles }

/-- `mutate_map` -/
def mutateMap (src dst : ℤ) : DeviceConfig Double → DeviceConfig Double :=
  mutateActive fun p => profileSetButton p src dst

/-- `mutate_reset`: only a profile that is there has something to reset. -/
def mutateReset (dc : DeviceConfig Double) : DeviceConfig Double :=
  if (profileFind dc dc.profile).isSome then mutateActive profileClearButtons dc else dc

/-- `mutate_number` -/
def mutateNumber (isScroll : Bool) (v : Double) : DeviceConfig Double → DeviceConfig Double :=
  mutateActive fun p =>
    if isScroll then { p with scrollSpeed := v, hasScroll := true }
    else { p with sensitivity := v, hasSens := true }

/-- `mutate_calib`: the empty path restores the default. -/
def mutateCalib (path : CStr) (dc : DeviceConfig Double) : DeviceConfig Double :=
  { dc with calib := if path = .empty then none else some path }

/-! ## Methods -/

/-- The calls of the interface. -/
inductive Request
  | listDevices
  | getStatus (mac : CStr)
  | setProfile (mac profile : CStr)
  | mapButton (mac src dst : CStr)
  | resetButtons (mac : CStr)
  | setScrollSpeed (mac : CStr) (v : Double)
  | setSensitivity (mac : CStr) (v : Double)
  | setCalibPath (mac path : CStr)
  | reload

/-- The action for profiles and numbers. -/
def profileSet : CStr := .lit "org.lgmagic.profile-set"

/-- The action for everything else. -/
def modifyInput : CStr := .lit "org.lgmagic.modify-input"

/-- The result of a handler. -/
abbrev Handler := Bus (Reply × DaemonDevices)

/-- A handler behind `gate`. -/
def gated (dd : DaemonDevices) (sender action : CStr) (body : Handler) : Handler := do
  match ← gate sender action with
  | some reply => return (reply, dd)
  | none => body

/-- A handler for the remote of an identity. -/
def onRemote (dd : DaemonDevices) (mac : CStr) (body : ℕ → DaemonRemote → Handler) : Handler :=
  if daemonIdentityValid mac then
    match findRemote dd mac with
    | none => return (fail lgErrorNotFound (ascii "no device '" ++ mac.val ++ ascii "'"), dd)
    | some (i, r) => body i r
  else
    return (fail lgErrorInvalidArguments
      (ascii "invalid device identity '" ++ mac.val ++ ascii "'"), dd)

/-- The reply to a save; the system's own message goes in where the code prints it. -/
def saveReply (strerror : Bytes) : Except SaveError Unit → Reply
  | .ok () => .ok
  | .error e => fail lgErrorFailed (e.text strerror)

/-- The end of the methods that change a configuration. -/
def mutateRemote (dd : DaemonDevices) (strerror : Bytes) (i : ℕ) (r : DaemonRemote)
    (mutate : DeviceConfig Double → DeviceConfig Double) : Handler := do
  let (saved, r) ← mutateAndSave dd r mutate
  return (saveReply strerror saved, dd.setRemote i r)

/-- A line of the status. -/
def statusLine (key : String) (value : Bytes) : Bytes :=
  ascii key ++ ascii ": " ++ value ++ ascii "\n"

/-- The text of `method_get_status`. -/
def statusText (dd : DaemonDevices) (r : DaemonRemote) : Bytes :=
  statusLine "identity" r.identity.val ++
    statusLine "profile" r.dc.profile.val ++
    statusLine "airmouse" (if r.pl.airmouseOn then ascii "on" else ascii "off") ++
    statusLine "calibration" (daemonConfigCalibPath dd.config r.dc r.identity 4096).val ++
    statusLine "calib_loaded" (if r.pl.haveCal then ascii "yes" else ascii "no") ++
    statusLine "keyboard" r.kbdPath.val ++
    statusLine "imu" (if r.imuPath = .empty then ascii "-" else r.imuPath.val) ++
    statusLine "scroll_speed" (fmtG 6 r.pl.active.scrollSpeed) ++
    statusLine "sensitivity" (fmtG 6 r.pl.active.sensitivity) ++
    statusLine "lpf_alpha"
      (fmtG 6 (if r.pl.active.hasLpf then r.pl.active.lpfAlpha else dd.global.lpfAlpha)) ++
    statusLine "buttons" (printInt r.pl.active.map.length)

/-- `method_get_status` -/
def methodGetStatus (dd : DaemonDevices) (mac : CStr) : Handler :=
  onRemote dd mac fun _ r =>
    let text := statusText dd r
    if 1024 ≤ text.length then return (.errno, dd) else return (.text (.ofBuffer text), dd)

/-- `method_set_profile`: the configuration with the new profile is read back from the disk. -/
def methodSetProfile (dd : DaemonDevices) (strerror : Bytes) (sender mac profile : CStr) : Handler :=
  gated dd sender profileSet <| onRemote dd mac fun i r =>
    if profile ≠ .lit "default" ∧ (profileFind r.dc profile).isNone then
      return (fail lgErrorInvalidArguments (ascii "profile '" ++ profile.val ++
        ascii "' is not defined for '" ++ mac.val ++ ascii "'"), dd)
    else do
      match ← liftSys (daemonConfigSaveProfile dd.config mac profile) with
      | .error e => return (saveReply strerror (.error e), dd)
      | .ok () =>
        let (_, fresh) ← liftSys (loadRemote dd.config r.identity)
        let r ← remoteApply dd { r with dc := fresh }
        return (.ok, dd.setRemote i r)

/-- `method_map_button`: the names of the keys are looked up first. -/
def methodMapButton (dd : DaemonDevices) (strerror : Bytes) (sender mac src dst : CStr) : Handler :=
  if keymapNameToCode src < 0 ∨ keymapNameToCode dst < 0 then
    return (fail lgErrorInvalidArguments (ascii "unknown keycode ('" ++ src.val ++ ascii "' or '" ++
      dst.val ++ ascii "')"), dd)
  else
    gated dd sender modifyInput <| onRemote dd mac fun i r =>
      mutateRemote dd strerror i r (mutateMap (keymapNameToCode src) (keymapNameToCode dst))

/-- `method_reset_buttons` -/
def methodResetButtons (dd : DaemonDevices) (strerror : Bytes) (sender mac : CStr) : Handler :=
  gated dd sender modifyInput <| onRemote dd mac fun i r => mutateRemote dd strerror i r mutateReset

/-- `method_set_number` -/
def methodSetNumber (dd : DaemonDevices) (strerror : Bytes) (sender mac : CStr) (v : Double)
    (isScroll : Bool) (lo hi : ℤ) (what : String) : Handler :=
  gated dd sender profileSet <| onRemote dd mac fun i r =>
    if v.lt (.ofInt lo) || (Double.ofInt hi).lt v then
      return (fail lgErrorInvalidArguments (ascii what ++ ascii " out of range (" ++
        fmtG 6 (.ofInt lo) ++ ascii ".." ++ fmtG 6 (.ofInt hi) ++ ascii ")"), dd)
    else mutateRemote dd strerror i r (mutateNumber isScroll v)

/-- `method_set_calib_path` -/
def methodSetCalibPath (dd : DaemonDevices) (strerror : Bytes) (sender mac path : CStr) : Handler :=
  gated dd sender modifyInput <| onRemote dd mac fun i r =>
    mutateRemote dd strerror i r (mutateCalib path)

/-- One remote of `daemon_devices_reload`: it keeps a configuration that cannot be loaded. -/
def reloadRemote (dd : DaemonDevices) (r : DaemonRemote) : Bus DaemonRemote := do
  match ← liftSys (loadRemote dd.config r.identity) with
  | (.error _, _) => return r
  | (.ok (), ndc) => configureRemote dd r ndc

/-- The loop over the remotes. -/
def reloadRemotes (dd : DaemonDevices) : List DaemonRemote → Bus (List DaemonRemote)
  | [] => return []
  | r :: rs => do
    let r ← reloadRemote dd r
    return r :: (← reloadRemotes dd rs)

/-- `daemon_devices_reload` -/
def daemonDevicesReload (dd : DaemonDevices) : Bus DaemonDevices := do
  let newg ← busCall (.configLoadDaemon dd.config.configRoot)
  let dd := { dd with global := newg }
  return { dd with remotes := ← reloadRemotes dd dd.remotes }

/-- `method_reload` -/
def methodReload (dd : DaemonDevices) (sender : CStr) : Handler :=
  gated dd sender modifyInput do return (.ok, ← daemonDevicesReload dd)

/-- The table of the methods. -/
def handleRequest (dd : DaemonDevices) (strerror : Bytes) (sender : CStr) : Request → Handler
  | .listDevices => return (.list (dd.remotes.map (·.identity)), dd)
  | .getStatus mac => methodGetStatus dd mac
  | .setProfile mac profile => methodSetProfile dd strerror sender mac profile
  | .mapButton mac src dst => methodMapButton dd strerror sender mac src dst
  | .resetButtons mac => methodResetButtons dd strerror sender mac
  | .setScrollSpeed mac v => methodSetNumber dd strerror sender mac v true 0 100 "scroll_speed"
  | .setSensitivity mac v => methodSetNumber dd strerror sender mac v false 0 10000 "sensitivity"
  | .setCalibPath mac path => methodSetCalibPath dd strerror sender mac path
  | .reload => methodReload dd sender

/-- The action that a method asks for; the methods that only read ask for none. -/
def Request.action : Request → Option CStr
  | .listDevices | .getStatus _ => none
  | .setProfile _ _ | .setScrollSpeed _ _ | .setSensitivity _ _ => some profileSet
  | .mapButton _ _ _ | .resetButtons _ | .setCalibPath _ _ | .reload => some modifyInput

end Daemon
