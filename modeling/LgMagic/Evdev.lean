import LgMagic.Pairing

/-!
# Input nodes

The `/dev/input` directory and the sysfs attributes behind it, as the scan of the daemon sees them at
one moment. Part of `evdev.c` and `daemon_devices.c`.

* `InputFs`: the directory, what the nodes answer, the links and attributes;
* `evdevProbe`, `evdevReadUniq`, `scanAdd`, `scanInputs`;
* `scanInputs_eq_filterMap`: a scan lists the nodes that answer.
-/

namespace Evdev

open CString Pairing

/-- What a node that could be opened answers; `none` when the request fails. -/
structure NodeInfo where
  /-- `EVIOCGNAME` -/
  name : Option CStr
  /-- Vendor and product of `EVIOCGID` -/
  id : Option (ℕ × ℕ)
  deriving DecidableEq

/-- The input nodes of a machine. -/
structure InputFs where
  /-- The entries of `/dev/input`, in the order of the directory. -/
  devInput : Option (List CStr)
  /-- Opening a path. -/
  node : CStr → Option NodeInfo
  readlink : CStr → Option CStr
  readFile : CStr → Option Bytes

/-- `/dev/input/` and an entry. -/
def devInputPath (entry : CStr) : CStr := .lit "/dev/input/" ++ entry

/-- `/sys/class/input/` and an entry. -/
def sysClassInput (entry : CStr) : CStr := .lit "/sys/class/input/" ++ entry

/-- What follows the last slash; `none` without a slash. -/
def afterSlash (s : CStr) : Option CStr :=
  if 0x2F ∈ s.val then
    some ⟨s.val.rtakeWhile (· != 0x2F), fun h => s.property ((s.val.rtakeWhile_suffix _).subset h)⟩
  else none

/-- A device that is opened: what `open_probe` fills in. -/
structure EvdevDev where
  name : CStr
  path : CStr
  vendor : ℕ
  product : ℕ
  deriving DecidableEq

/-- `open_probe` -/
def openProbe (fs : InputFs) (path : CStr) : Option EvdevDev :=
  (fs.node path).map fun info =>
    { name := .snprintf 256 (info.name.getD .empty)
      path := .snprintf 256 path
      vendor := (info.id.getD (0, 0)).1
      product := (info.id.getD (0, 0)).2 }

/-- `evdev_probe` with a buffer of 256 bytes for the name. -/
def evdevProbe (fs : InputFs) (path : CStr) : Option (CStr × ℕ × ℕ) :=
  (openProbe fs path).map fun dev => (.snprintf 256 dev.name, dev.vendor, dev.product)

/-- The text of a buffer up to the first newline. -/
def firstLine (b : Bytes) : CStr :=
  ⟨(CStr.ofBuffer b).val.takeWhile (· != 0x0A),
    fun h => (CStr.ofBuffer b).property ((List.takeWhile_prefix _).subset h)⟩

/-- `evdev_read_uniq`; `none` for a path that is no event node. -/
def evdevReadUniq (fs : InputFs) (path : CStr) (outsz : ℕ) : Option CStr :=
  match afterSlash path with
  | none => none
  | some base =>
    if ascii "event" <+: base.val then
      match fs.readlink (.snprintf 4128 (sysClassInput base ++ .lit "/device")) with
      | none => some .empty
      | some target =>
        let link := CStr.snprintf 4096 target
        let input := (afterSlash link).getD link
        match fs.readFile (.snprintf 4128 (sysClassInput input ++ .lit "/uniq")) with
        | none => some .empty
        | some bytes => some (firstLine (bytes.take (outsz - 1)))
    else none

/-- The entry that `scan_add` fills in for a node; `none` when the node cannot be opened. -/
def scanEntry (fs : InputFs) (path : CStr) : Option PairingInputDev :=
  (evdevProbe fs path).map fun (name, vendor, product) =>
    { path := .snprintf 256 path
      name := name
      uniq := (evdevReadUniq fs path 64).getD .empty
      vendor := vendor
      product := product }

/-- `scan_add` -/
def scanAdd (fs : InputFs) (entries : List PairingInputDev) (path : CStr) : List PairingInputDev :=
  entries ++ (scanEntry fs path).toList

/-- `scan_inputs` -/
def scanInputs (fs : InputFs) (kbdOverride : Option CStr) : Option (List PairingInputDev) :=
  match fs.devInput with
  | none => if kbdOverride.isSome then some [] else none
  | some names =>
    let entries := (names.filter fun n => ascii "event" <+: n.val).foldl
      (fun entries n => scanAdd fs entries (devInputPath n)) []
    match kbdOverride with
    | none => some entries
    | some pinned =>
      if entries.any (·.path = pinned) then some entries else some (scanAdd fs entries pinned)

/-- A scan lists the nodes that answer, in the order of the directory. -/
theorem scanInputs_eq_filterMap {fs : InputFs} {names : List CStr}
    (hdir : fs.devInput = some names) :
    scanInputs fs none = some ((names.filter fun n => ascii "event" <+: n.val).filterMap
      fun n => scanEntry fs (devInputPath n)) := by
  have hrun (ns : List CStr) (entries : List PairingInputDev) :
      ns.foldl (fun entries n => scanAdd fs entries (devInputPath n)) entries =
        entries ++ ns.filterMap fun n => scanEntry fs (devInputPath n) := by
    induction ns generalizing entries with
    | nil => simp
    | cons n ns ih =>
      rw [List.foldl_cons, ih, scanAdd, List.append_assoc]
      cases h : scanEntry fs (devInputPath n) <;> simp [h]
  simp [scanInputs, hdir, hrun]

end Evdev
