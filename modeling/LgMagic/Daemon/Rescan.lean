import LgMagic.Daemon.Devices
import LgMagic.Daemon.Identity
import LgMagic.Evdev
import LgMagic.Lib.GrabTable
import LgMagic.Lib.Transition

/-!
# Rescans

The rescan of the input nodes: the nodes are paired again, a remote whose identity and nodes are as
before is kept as it is, every other one is opened anew, and what is left of the old ones is closed
at the end. Part of `daemon_devices.c`.

* `Inputs`: what a rescan finds;
* `remoteOpen`, `daemonDevicesRescan`;
* `steal_cases`, `remoteOpen_cases`: what keeping and opening a remote comes to;
* `deviceSystem`: the runs of rescans and handled slots.
-/

namespace Daemon

open CString Binary64 Evdev Pairing Pointer Profiles

/-- What a rescan finds. -/
structure Inputs where
  fs : InputFs
  /-- The device that opening a node gives. -/
  opens : CStr → Option ℕ
  /-- The descriptors of the virtual keyboard and mouse that are created for an identity. -/
  uinput : CStr → Option (ℕ × ℕ)
  /-- The configuration files. -/
  files : CStr → Option Bytes
  calibLoad : CStr → Except Bytes (Calib Double)
  /-- Whether `/dev/input` can be watched. -/
  watch : Bool
  now : ℤ

/-- The descriptors of a remote that are open. -/
def DaemonRemote.fds (r : DaemonRemote) : List ℕ := r.kbd.toList ++ r.imu.toList

/-- The configuration and the pipeline that `remote_open` sets up. A configuration that cannot be
loaded is used as far as it was. -/
def remoteConfigure (dd : DaemonDevices) (w : Inputs) (identity : CStr) (kbdUinput : Option ℕ) :
    DeviceConfig Double × Pipeline Double :=
  let dc := (daemonConfigLoadRemote dd.config w.files identity).2
  let calibPath := daemonConfigCalibPath dd.config dc identity 4096
  let fd : ℤ := (kbdUinput.map fun fd => (fd : ℤ)).getD (-1)
  (dc, (pipelineConfigure w.calibLoad pipelineInit dc calibPath dd.global fd).2.1)

/-- `remote_uinput_open`: the virtual devices, none of them with `--no-uinput`. -/
def remoteUinputOpen (dd : DaemonDevices) (w : Inputs) (identity : CStr) :
    Option (Option ℕ × Option ℕ) :=
  if dd.noUinput then some (none, none)
  else (w.uinput identity).map fun (kbd, mouse) => (some kbd, some mouse)

/-- The IMU of a remote: the descriptor and the path, both gone where it cannot be opened. -/
def imuOpen (w : Inputs) (t : GrabTable ℕ) (imuPath : CStr) : GrabTable ℕ × Option ℕ × CStr :=
  if imuPath = .empty then (t, none, imuPath)
  else
    match w.opens imuPath with
    | none => (t, none, .empty)
    | some d => ((t.openDev d).1, some (t.openDev d).2, imuPath)

/-- `remote_open`: the virtual devices first, then the keyboard, which is grabbed if it can be, and
the IMU. -/
def remoteOpen (dd : DaemonDevices) (w : Inputs) (t : GrabTable ℕ) (identity kbdPath imuPath : CStr) :
    GrabTable ℕ × Option DaemonRemote :=
  match remoteUinputOpen dd w identity with
  | none => (t, none)
  | some (kbdUinput, mouseUinput) =>
    match w.opens kbdPath with
    | none => (t, none)
    | some d =>
      let (t, kbd) := t.openDev d
      -- a keyboard that cannot be grabbed is used all the same
      let t := (t.grab kbd).1
      let (t, imu, imuPath) := imuOpen w t imuPath
      let (dc, pl) := remoteConfigure dd w identity kbdUinput
      (t, some ⟨identity, kbdPath, imuPath, some kbd, imu, kbdUinput, mouseUinput, dc, pl⟩)

/-- Whether an old remote is the one that a rescan found. -/
def DaemonRemote.isAt (e : DaemonRemote) (identity kbdPath imuPath : CStr) : Bool :=
  e.identity = identity && e.kbdPath = kbdPath && e.imuPath = imuPath

/-- The loop over the old remotes: the first one that is unchanged is taken out. -/
def steal (identity kbdPath imuPath : CStr) :
    List (Option DaemonRemote) → Option (DaemonRemote × List (Option DaemonRemote))
  | [] => none
  | none :: es => (steal identity kbdPath imuPath es).map fun (r, es) => (r, none :: es)
  | some e :: es =>
    if e.isAt identity kbdPath imuPath then some (e, none :: es)
    else (steal identity kbdPath imuPath es).map fun (r, es) => (r, some e :: es)

/-- The path of the IMU of a pair, empty without one. -/
def imuPathOf (pr : PairedRemote) : CStr := (pr.imu.map (·.path)).getD .empty

/-- The state of the loop that builds the new remotes: the descriptors, the old remotes that are not
taken out yet, the new ones. -/
structure Rebuild where
  table : GrabTable ℕ
  old : List (Option DaemonRemote)
  new : List DaemonRemote

/-- One pair of the loop. -/
def rebuildStep (dd : DaemonDevices) (w : Inputs) (b : Rebuild) (pr : PairedRemote) : Rebuild :=
  let identity := identityOf pr.uniq
  match steal identity pr.keyboard.path (imuPathOf pr) b.old with
  | some (r, old) => { b with old := old, new := b.new ++ [r] }
  | none =>
    let (table, r) := remoteOpen dd w b.table identity pr.keyboard.path (imuPathOf pr)
    { b with table := table, new := b.new ++ r.toList }

/-- Whether the daemon takes a keyboard over: with `--keyboard` only the pinned one. -/
def takesOver (dd : DaemonDevices) (kbd : PairingInputDev) : Bool :=
  match dd.kbdOverride with
  | none => true
  | some pinned => kbd.path = pinned

/-- The descriptors of the old remotes that are left. -/
def leftFds (old : List (Option DaemonRemote)) : List ℕ :=
  old.flatMap fun e => (e.map (·.fds)).getD []

/-- The beginning of a rescan: the time is noted and the watch is tried again. -/
def rescanStart (dd : DaemonDevices) (w : Inputs) : DaemonDevices :=
  { dd with
    lastRescanMs := w.now
    haveRescan := false
    inotifyWatching := dd.inotifyWatching || (dd.inotifyFd.isSome && w.watch) }

/-- The pairs that a rescan takes over. -/
def rescanPairs (dd : DaemonDevices) (w : Inputs) : Except Bytes (List PairedRemote) :=
  match scanInputs w.fs dd.kbdOverride with
  | none => .error (ascii "cannot scan /dev/input")
  | some entries =>
    match pairingMatch entries entries.length with
    | .error e => .error e
    | .ok paired => .ok (paired.filter fun pr => takesOver dd pr.keyboard)

/-- The loop over the pairs. -/
def rebuild (dd : DaemonDevices) (t : GrabTable ℕ) (w : Inputs) (pairs : List PairedRemote) :
    Rebuild :=
  pairs.foldl (rebuildStep dd w) ⟨t, dd.remotes.map some, []⟩

/-- `daemon_devices_rescan`. Where the nodes cannot be scanned or paired the remotes stay as they
are. -/
def daemonDevicesRescan (dd : DaemonDevices) (t : GrabTable ℕ) (w : Inputs) :
    Except Bytes Unit × DaemonDevices × GrabTable ℕ :=
  let dd := rescanStart dd w
  match rescanPairs dd w with
  | .error e => (.error e, dd, t)
  | .ok pairs =>
    let b := rebuild dd t w pairs
    (.ok (), { dd with remotes := b.new }, b.table.closeAll (leftFds b.old))

/-! ## The steps -/

variable {dd : DaemonDevices} {w : Inputs}

/-- Taking an unchanged remote out leaves the others. -/
theorem steal_cases (identity kbdPath imuPath : CStr) (old : List (Option DaemonRemote)) :
    (∃ l₁ e l₂, old = l₁ ++ some e :: l₂ ∧ e.isAt identity kbdPath imuPath ∧
      steal identity kbdPath imuPath old = some (e, l₁ ++ none :: l₂)) ∨
    ((∀ e, some e ∈ old → e.isAt identity kbdPath imuPath = false) ∧
      steal identity kbdPath imuPath old = none) := by
  induction old with
  | nil => exact .inr ⟨by simp, rfl⟩
  | cons o old ih =>
    cases o with
    | none =>
      rcases ih with ⟨l₁, e, l₂, rfl, he, hsteal⟩ | ⟨hnone, hsteal⟩
      · exact .inl ⟨none :: l₁, e, l₂, rfl, he, by simp [steal, hsteal]⟩
      · exact .inr ⟨by simpa using hnone, by simp [steal, hsteal]⟩
    | some e =>
      cases he : e.isAt identity kbdPath imuPath with
      | true => exact .inl ⟨[], e, old, rfl, he, by simp [steal, he]⟩
      | false =>
        rcases ih with ⟨l₁, e', l₂, rfl, he', hsteal⟩ | ⟨hnone, hsteal⟩
        · exact .inl ⟨some e :: l₁, e', l₂, rfl, he', by simp [steal, he, hsteal]⟩
        · refine .inr ⟨fun e' he' => ?_, by simp [steal, he, hsteal]⟩
          rcases List.mem_cons.mp he' with h | h
          · rwa [Option.some.inj h]
          · exact hnone e' h

/-- What a remote is opened to, and the files that are opened for it. -/
theorem remoteOpen_cases (dd : DaemonDevices) (w : Inputs) (t : GrabTable ℕ)
    (identity kbdPath imuPath : CStr) :
    remoteOpen dd w t identity kbdPath imuPath = (t, none) ∨
    ∃ d r, w.opens kbdPath = some d ∧ (remoteUinputOpen dd w identity).isSome = true ∧
      remoteOpen dd w t identity kbdPath imuPath =
        ((imuOpen w ((t.openDev d).1.grab t.next).1 imuPath).1, some r) ∧
      r.kbd = some t.next ∧
      r.imu = (imuOpen w ((t.openDev d).1.grab t.next).1 imuPath).2.1 ∧
      r.imuPath = (imuOpen w ((t.openDev d).1.grab t.next).1 imuPath).2.2 := by
  unfold remoteOpen
  cases remoteUinputOpen dd w identity with
  | none => exact .inl rfl
  | some u =>
    cases hopen : w.opens kbdPath with
    | none => exact .inl rfl
    | some d => exact .inr ⟨d, _, rfl, rfl, rfl, rfl, rfl, rfl⟩

@[simp]
theorem rescanStart_remotes : (rescanStart dd w).remotes = dd.remotes := rfl

@[simp]
theorem rescanPairs_rescanStart : rescanPairs (rescanStart dd w) w = rescanPairs dd w := rfl

/-- A rescan that fails keeps the remotes. -/
theorem rescan_of_error {t : GrabTable ℕ} {e : Bytes} (h : rescanPairs dd w = .error e) :
    daemonDevicesRescan dd t w = (.error e, rescanStart dd w, t) := by
  simp [daemonDevicesRescan, h]

/-- A rescan that succeeds has the remotes of the loop, and the old ones that are left closed. -/
theorem rescan_of_ok {t : GrabTable ℕ} {pairs : List PairedRemote} (h : rescanPairs dd w = .ok pairs) :
    let b := rebuild (rescanStart dd w) t w pairs
    daemonDevicesRescan dd t w = (.ok (), { rescanStart dd w with remotes := b.new },
      b.table.closeAll (leftFds b.old)) := by
  simp [daemonDevicesRescan, h]

/-- The pairs of a rescan are keyboards of the scan, in the order of the scan. -/
theorem keyboards_of_rescanPairs {pairs : List PairedRemote} (h : rescanPairs dd w = .ok pairs) :
    ∃ entries, scanInputs w.fs dd.kbdOverride = some entries ∧
      (pairs.map (·.keyboard)).Sublist (entries.filter (takesOver dd)) := by
  unfold rescanPairs at h
  split at h
  · cases h
  · next entries hscan =>
    split at h
    · cases h
    · next paired hpaired =>
      injection h with h
      refine ⟨entries, hscan, ?_⟩
      have hmap : (paired.filter fun pr => takesOver dd pr.keyboard).map (·.keyboard) =
          (paired.map (·.keyboard)).filter (takesOver dd) := by
        rw [List.filter_map]
        rfl
      rw [← h, hmap, pairingMatch_keyboard hpaired]
      exact ((List.take_sublist _ _).trans List.filter_sublist).filter _

/-! ## Runs -/

/-- The daemon between two inputs: its remotes, the open files, and whether the last input was a
rescan that succeeded. -/
structure DevSys where
  dd : DaemonDevices
  table : GrabTable ℕ
  rescanned : Bool

/-- The inputs: a rescan, and a slot that is handled. -/
inductive DevInput where
  | rescan (w : Inputs)
  | handle (idx : ℕ) (io : HandleIo)

/-- The descriptor that handling a slot closes. -/
def handleLost (dd : DaemonDevices) (idx : ℕ) (read : ReadResult) : List ℕ :=
  match handleSlot dd idx with
  | some (.dev side i) =>
    if closes (some (.dev side i)) read then (dd.remotes[i]?.bind (·.fd side)).toList else []
  | _ => []

/-- A rescan. -/
def DevSys.rescan (s : DevSys) (w : Inputs) : DevSys :=
  let r := daemonDevicesRescan s.dd s.table w
  ⟨r.2.1, r.2.2, r.1.isOk⟩

/-- A slot is handled. -/
def DevSys.handle (s : DevSys) (idx : ℕ) (io : HandleIo) : DevSys :=
  ⟨(daemonDevicesHandle s.dd idx io).dd, s.table.closeAll (handleLost s.dd idx io.read), false⟩

/-- The runs of the daemon from its start, where the nodes found are always as `ok` says. -/
def deviceSystem (ok : DaemonDevices → Inputs → Prop) : TransitionSystem DevSys DevInput where
  init s := s.dd.remotes = [] ∧ s.table = .empty ∧ s.rescanned = false
  step s i s' :=
    match i with
    | .rescan w => ok s.dd w ∧ s' = s.rescan w
    | .handle idx io => s' = s.handle idx io

/-! ## A remote -/

/-- Nodes without `uniq` that can all be opened; each is a device of its own. -/
def nodeInputs (nodes : List (CStr × CStr)) : Inputs where
  fs :=
    { devInput := some (nodes.map (·.1))
      node := fun path => (nodes.find? fun n => devInputPath n.1 = path).map fun n =>
        ⟨some n.2, some (lgVid, lgPid)⟩
      readlink := fun _ => none
      readFile := fun _ => none }
  opens path := nodes.findIdx? fun n => devInputPath n.1 = path
  uinput _ := some (20, 21)
  files _ := none
  calibLoad _ := .error []
  watch := false
  now := 0

/-- The nodes of a remote. -/
def remoteInputs : Inputs := nodeInputs [(.lit "event0", kbdName), (.lit "event1", imuName)]

/-- The daemon at its start. -/
def startDev : DevSys where
  dd := ⟨[], defaultDirs, ⟨CNum.ofRat (1 / 5), true, CNum.ofRat 60, CNum.ofRat 400⟩, none, false, none,
    false, false, 0, 0⟩
  table := .empty
  rescanned := false

end Daemon
