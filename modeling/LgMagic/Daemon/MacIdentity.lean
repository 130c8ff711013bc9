import LgMagic.Daemon.Identity
import LgMagic.Evdev
import LgMagic.Kernel.Probe

/-!
# Identities of the remotes on a machine

The way of a MAC from the kernel driver to the daemon: the driver registers the two input devices of
each remote, sysfs shows their attributes, the scan reads them and the pairing puts the devices
together. The probe sets no `uniq`, so no remote ever gets its MAC for an identity, and the devices
of several remotes cannot be paired at all.

* `Machine`: the nodes of some remotes, in the order of the directory, and what sysfs shows of them;
* `Machine.PairsByMac`: the scan finds one remote for each MAC, with the IMU of the same probe;
* `BoundMachine.paired_error`: the nodes of several remotes are ambiguous;
* `BoundMachine.pairsByMac_iff`: the scan finds the MACs only where there is no remote.
-/

namespace Daemon

open CString Pairing Evdev Kernel

/-- A registered input device: its entry in `/dev/input` and the name it has in sysfs. -/
structure Node where
  event : CStr
  input : CStr
  dev : InputDev
  deriving DecidableEq

/-- What a machine shows of an input device. An unset `uniq` shows as an empty line. -/
structure Exposes (fs : InputFs) (n : Node) : Prop where
  isEventNode : ascii "event" <+: n.event.val
  event_name : 0x2F ∉ n.event.val ∧ n.event.val.length < 32
  input_name : 0x2F ∉ n.input.val ∧ n.input.val.length < 32
  node : fs.node (devInputPath n.event) =
    some ⟨n.dev.name, some (n.dev.id.vendor, n.dev.id.product)⟩
  link : ∃ dir : CStr, dir.val.length < 4000 ∧
    fs.readlink (sysClassInput n.event ++ .lit "/device") = some (dir ++ .lit "/" ++ n.input)
  uniq : fs.readFile (sysClassInput n.input ++ .lit "/uniq") =
    some ((n.dev.uniq.getD .empty).val ++ ascii "\n")

/-- A remote and the nodes of its devices. -/
structure RemoteNodes where
  hdev : HidDevice
  kbd : Node
  imu : Node
  deriving DecidableEq

/-- A machine with the input devices of some remotes. -/
structure Machine where
  fs : InputFs
  remotes : List RemoteNodes
  /-- The nodes in the order of the directory. -/
  nodes : List Node
  devInput : fs.devInput = some (nodes.map (·.event))
  registered : nodes.Perm (remotes.flatMap fun r => [r.kbd, r.imu])
  events : (nodes.map (·.event)).Nodup
  exposed : ∀ n ∈ nodes, Exposes fs n

/-- A machine whose remotes, with MACs of their own, are bound by the driver in raw mode. -/
structure BoundMachine extends Machine where
  params : ModuleParams
  core : HidCore
  raw : params.rawOnly = true
  matched : ∀ r ∈ remotes, r.hdev.matchesTable = true
  probed : ∀ r ∈ remotes, lgmagicProbe params core r.hdev = .ok [r.kbd.dev, r.imu.dev]
  macs : ∀ r ∈ remotes, isMac r.hdev.uniq = true
  distinct : (remotes.map (·.hdev.uniq)).Nodup

/-- The scan and the pairing of a rescan. -/
def pairedInputs (fs : InputFs) : Except Bytes (List PairedRemote) :=
  let entries := (scanInputs fs none).getD []
  pairingMatch entries entries.length

/-- The rescan finds one remote for each MAC, under that MAC, and its IMU is the node of the same
probe. -/
def Machine.PairsByMac (m : Machine) : Prop :=
  ∃ out, pairedInputs m.fs = .ok out ∧
    (out.map fun p => identityOf p.uniq).Perm (m.remotes.map (·.hdev.uniq)) ∧
    ∀ p ∈ out, ∀ r ∈ m.remotes, identityOf p.uniq = r.hdev.uniq →
      p.imu.map (·.path) = some (devInputPath r.imu.event)

/-! ## The scan of a node -/

theorem afterSlash_append (dir : CStr) {s : CStr} (h : 0x2F ∉ s.val) :
    afterSlash (dir ++ .lit "/" ++ s) = some s := by
  have hslash : (CStr.lit "/").val = [0x2F] := by decide
  have hs : s.val.rtakeWhile (· != 0x2F) = s.val := by
    refine List.rtakeWhile_eq_self_iff.mpr fun c hc => ?_
    simpa using fun h0 : c = 0x2F => h (h0 ▸ hc)
  have hrest : (dir ++ CStr.lit "/" ++ s).val.rtakeWhile (· != 0x2F) = s.val := by
    simp only [CStr.append_val, hslash, List.rtakeWhile, List.reverse_append]
    rw [List.takeWhile_append_of_pos (fun c hc => ?_)]
    · simp
    · simpa using fun h0 : c = 0x2F => h (h0 ▸ List.mem_reverse.mp hc)
  unfold afterSlash
  rw [if_pos (by simp [CStr.append_val, hslash])]
  exact congrArg some (Subtype.ext hrest)

variable {fs : InputFs} {n : Node}

/-- The scan reads the attribute that sysfs shows. -/
theorem evdevReadUniq_of_exposes (h : Exposes fs n) :
    evdevReadUniq fs (devInputPath n.event) 64 =
      some (firstLine (((n.dev.uniq.getD .empty).val ++ ascii "\n").take 63)) := by
  obtain ⟨dir, hdir, hlink⟩ := h.link
  have hevent : afterSlash (devInputPath n.event) = some n.event := by
    rw [← afterSlash_append (.lit "/dev/input") h.event_name.1]
    congr 1
  have hlen (a : CStr) (ha : a.val.length < 32) (t : CStr) (ht : t.val.length < 32) :
      CStr.snprintf 4128 (sysClassInput a ++ t) = sysClassInput a ++ t := by
    refine CStr.snprintf_of_lt ?_
    have : (CStr.lit "/sys/class/input/").val.length = 17 := by decide
    simp only [sysClassInput, CStr.append_val, List.length_append]
    omega
  have hlink' : CStr.snprintf 4096 (dir ++ .lit "/" ++ n.input) = dir ++ .lit "/" ++ n.input := by
    refine CStr.snprintf_of_lt ?_
    have : (CStr.lit "/").val.length = 1 := by decide
    have := h.input_name.2
    simp only [CStr.append_val, List.length_append]
    omega
  simp only [evdevReadUniq, hevent, if_pos h.isEventNode]
  rw [hlen _ h.event_name.2 _ (by decide), hlink]
  simp only [hlink', afterSlash_append dir h.input_name.1, Option.getD_some]
  rw [hlen _ h.input_name.2 _ (by decide), h.uniq]

theorem scanEntry_of_exposes (h : Exposes fs n) :
    scanEntry fs (devInputPath n.event) = some
      { path := devInputPath n.event
        name := .snprintf 256 (.snprintf 256 (n.dev.name.getD .empty))
        uniq := firstLine (((n.dev.uniq.getD .empty).val ++ ascii "\n").take 63)
        vendor := n.dev.id.vendor
        product := n.dev.id.product } := by
  have hpath : CStr.snprintf 256 (devInputPath n.event) = devInputPath n.event := by
    refine CStr.snprintf_of_lt ?_
    have : (CStr.lit "/dev/input/").val.length = 11 := by decide
    have := h.event_name.2
    simp only [devInputPath, CStr.append_val, List.length_append]
    omega
  simp [scanEntry, evdevProbe, openProbe, h.node, evdevReadUniq_of_exposes h, hpath]

/-- The entry of a device without `uniq`. -/
def entryOf (n : Node) : PairingInputDev :=
  ⟨devInputPath n.event, n.dev.name.getD .empty, .empty, n.dev.id.vendor, n.dev.id.product⟩

theorem scanEntry_of_unset (h : Exposes fs n) (hname : (n.dev.name.getD .empty).val.length < 256)
    (huniq : n.dev.uniq = none) : scanEntry fs (devInputPath n.event) = some (entryOf n) := by
  have hempty : firstLine ((CStr.empty.val ++ ascii "\n").take 63) = .empty := by decide
  rw [scanEntry_of_exposes h, huniq]
  simp [entryOf, CStr.snprintf_of_lt hname, hempty]

/-! ## The remotes of a machine -/

namespace BoundMachine

variable (m : BoundMachine)

/-- The names and ids that the probe gave the two devices of a remote. -/
theorem dev_of_mem {r : RemoteNodes} (hr : r ∈ m.remotes) :
    r.kbd.dev = ⟨some kbdName, none, ⟨r.hdev.bus, lgVid, lgPid⟩⟩ ∧
      r.imu.dev = ⟨some imuName, none, ⟨r.hdev.bus, lgVid, lgPid⟩⟩ := by
  have htable := m.matched r hr
  simp only [HidDevice.matchesTable, lgmagicDevices, List.any_cons, List.any_nil, Bool.or_false,
    Bool.and_eq_true, decide_eq_true_eq] at htable
  obtain ⟨hkbd, himu⟩ := lgmagicProbe_raw m.raw (m.probed r hr)
  rw [← htable.1.2, ← htable.2] at hkbd himu
  exact ⟨hkbd, himu⟩

theorem mem_nodes {n : Node} : n ∈ m.nodes ↔ ∃ r ∈ m.remotes, n = r.kbd ∨ n = r.imu := by
  simp [m.registered.mem_iff, List.mem_flatMap]

/-- The scan finds every node, without a MAC. -/
theorem scanInputs_eq : scanInputs m.fs none = some (m.nodes.map entryOf) := by
  have hentry : ∀ n ∈ m.nodes, scanEntry m.fs (devInputPath n.event) = some (entryOf n) := by
    intro n hn
    obtain ⟨r, hr, rfl | rfl⟩ := m.mem_nodes.mp hn
    · exact scanEntry_of_unset (m.exposed _ hn) (by simp [(m.dev_of_mem hr).1]; decide)
        (by simp [(m.dev_of_mem hr).1])
    · exact scanEntry_of_unset (m.exposed _ hn) (by simp [(m.dev_of_mem hr).2]; decide)
        (by simp [(m.dev_of_mem hr).2])
  have hevent : (m.nodes.map (·.event)).filter (fun e => ascii "event" <+: e.val) =
      m.nodes.map (·.event) := by
    refine List.filter_eq_self.mpr fun e he => ?_
    obtain ⟨n, hn, rfl⟩ := List.mem_map.mp he
    simpa using (m.exposed n hn).isEventNode
  rw [scanInputs_eq_filterMap m.devInput, hevent, List.filterMap_map]
  congr 1
  rw [← List.filterMap_eq_map]
  exact List.filterMap_congr hentry

/-- The keyboards and the IMUs of the scan are those of the remotes. -/
theorem filter_entries :
    ((m.nodes.map entryOf).filter pairingIsKeyboard).Perm
      (m.remotes.map fun r => entryOf r.kbd) ∧
    ((m.nodes.map entryOf).filter pairingIsImu).Perm (m.remotes.map fun r => entryOf r.imu) := by
  have hmap := m.registered.map entryOf
  have hpick {p : PairingInputDev → Bool} {f : RemoteNodes → PairingInputDev}
      (hp : ∀ r ∈ m.remotes, [entryOf r.kbd, entryOf r.imu].filter p = [f r]) :
      ((m.nodes.map entryOf).filter p).Perm (m.remotes.map f) := by
    refine (hmap.filter p).trans (List.Perm.of_eq ?_)
    rw [List.map_flatMap, List.filter_flatMap, ← List.flatMap_singleton' (m.remotes.map f),
      List.flatMap_map]
    exact List.flatMap_congr hp
  have hne : kbdName ≠ imuName := by decide
  constructor
  · refine hpick fun r hr => ?_
    obtain ⟨hk, hi⟩ := m.dev_of_mem hr
    simp [entryOf, hk, hi, pairingIsKeyboard, hne.symm]
  · refine hpick fun r hr => ?_
    obtain ⟨hk, hi⟩ := m.dev_of_mem hr
    simp [entryOf, hk, hi, pairingIsImu, hne]

/-- Several remotes are refused, in whatever order the nodes are found. -/
theorem paired_error (h : 2 ≤ m.remotes.length) :
    pairedInputs m.fs = .error (errCandidates m.remotes.length) := by
  have hlen := m.filter_entries.1.length_eq
  rw [List.length_map] at hlen
  simp only [pairedInputs, m.scanInputs_eq, Option.getD_some]
  rw [pairingMatch_ambiguous (by simp [entryOf]) (hlen ▸ h), hlen]
  intro hnil
  have := m.filter_entries.2.length_eq
  simp only [hnil, List.length_nil, List.length_map] at this
  omega

/-- The remotes are found under their MACs only where there is none. -/
theorem pairsByMac_iff : m.PairsByMac ↔ m.remotes = [] := by
  constructor
  · rintro ⟨out, hout, hperm, -⟩
    simp only [pairedInputs, m.scanInputs_eq, Option.getD_some] at hout
    refine List.eq_nil_iff_forall_not_mem.mpr fun r hr => ?_
    obtain ⟨p, hp, hmac⟩ := List.mem_map.mp
      (hperm.mem_iff.mpr (List.mem_map_of_mem (f := fun r => r.hdev.uniq) hr))
    have huniq : p.uniq = .empty := uniq_of_mem_pairingMatch hout (by simp [entryOf]) hp
    have hunknown : isMac (identityOf .empty) = false := by decide
    rw [huniq] at hmac
    exact absurd (m.macs r hr) (by simp [← hmac, hunknown])
  · intro h
    have hnodes : m.nodes = [] := by
      simpa [h] using m.registered
    refine ⟨[], ?_, by simp [h], by simp⟩
    simp only [pairedInputs, m.scanInputs_eq, hnodes, List.map_nil, Option.getD_some]
    rfl

end BoundMachine

/-! ## Two remotes -/

/-- The directories that show some nodes. -/
def fsOf (nodes : List Node) : InputFs where
  devInput := some (nodes.map (·.event))
  node path := (nodes.find? fun n => devInputPath n.event = path).map fun n =>
    ⟨n.dev.name, some (n.dev.id.vendor, n.dev.id.product)⟩
  readlink path := (nodes.find? fun n => sysClassInput n.event ++ .lit "/device" = path).map fun n =>
    .lit "../../input" ++ .lit "/" ++ n.input
  readFile path := (nodes.find? fun n => sysClassInput n.input ++ .lit "/uniq" = path).map fun n =>
    (n.dev.uniq.getD .empty).val ++ ascii "\n"

/-- A node of an input device that was registered on Bluetooth. -/
def remoteNode (name event input : CStr) : Node :=
  ⟨event, input, ⟨some name, none, ⟨busBluetooth, lgVid, lgPid⟩⟩⟩

/-- Two remotes with MACs of their own. -/
def twoRemotes : List RemoteNodes :=
  [⟨⟨busBluetooth, lgVid, lgPid, .lit "AA:BB:CC:DD:EE:01"⟩,
      remoteNode (.lit "LG Magic Remote") (.lit "event0") (.lit "input10"),
      remoteNode (.lit "LG Magic Remote IMU") (.lit "event1") (.lit "input11")⟩,
    ⟨⟨busBluetooth, lgVid, lgPid, .lit "AA:BB:CC:DD:EE:02"⟩,
      remoteNode (.lit "LG Magic Remote") (.lit "event2") (.lit "input12"),
      remoteNode (.lit "LG Magic Remote IMU") (.lit "event3") (.lit "input13")⟩]

/-- The nodes of the two remotes. -/
def twoRemotesNodes : List Node := twoRemotes.flatMap fun r => [r.kbd, r.imu]

theorem exposes_twoRemotes : ∀ n ∈ twoRemotesNodes, Exposes (fsOf twoRemotesNodes) n := by
  intro n hn
  simp only [twoRemotesNodes, twoRemotes, List.flatMap_cons, List.flatMap_nil, List.cons_append,
    List.nil_append, List.append_nil, List.mem_cons, List.not_mem_nil, or_false] at hn
  rcases hn with rfl | rfl | rfl | rfl <;>
    exact ⟨by decide, by decide, by decide, by decide, ⟨.lit "../../input", by decide, by decide⟩,
      by decide⟩

/-- The machine with the two remotes, all calls of the probe succeeding. -/
def twoRemotesMachine : BoundMachine where
  fs := fsOf twoRemotesNodes
  remotes := twoRemotes
  nodes := twoRemotesNodes
  devInput := rfl
  registered := List.Perm.refl _
  events := by decide
  exposed := exposes_twoRemotes
  params := ⟨false, true⟩
  core := ⟨fun _ => 0, fun _ => 0, fun _ => 0⟩
  raw := rfl
  matched := by decide
  probed := by decide
  macs := by decide
  distinct := by decide

/-- The two remotes cannot be paired. -/
theorem twoRemotes_not_pairsByMac : ¬ twoRemotesMachine.PairsByMac := by
  rintro ⟨out, hout, -⟩
  have herr : pairedInputs twoRemotesMachine.fs = .error (errCandidates 2) := by decide +kernel
  rw [herr] at hout
  cases hout

end Daemon
