import LgMagic.Daemon.Config
import LgMagic.Daemon.Pipeline

/-!
# The remotes of the daemon

The remotes that are open and the loop over their descriptors: which device is put in which slot of
a poll, and which device a slot is handled on. Part of `daemon_devices.c`.

* `DaemonRemote`, `DaemonDevices`;
* `daemonDevicesPollfds`, `daemonDevicesHandle`;
* `openSlots`: the devices that are open, in the order of the slots;
* `map_dev_pollfds`, `handleSlot_eq`: both loops follow that order;
* `openSlots_handle`: what handling a slot does to it.
-/

namespace Daemon

open Binary64 Profiles

/-- `struct daemon_remote`. A descriptor that is not open is `none`. -/
structure DaemonRemote where
  identity : CStr
  kbdPath : CStr
  /-- Empty without an IMU. -/
  imuPath : CStr
  kbd : Option ℕ
  imu : Option ℕ
  kbdUinput : Option ℕ
  mouseUinput : Option ℕ
  dc : DeviceConfig Double
  pl : Pipeline Double
  deriving DecidableEq

/-- `struct daemon_devices` -/
structure DaemonDevices where
  remotes : List DaemonRemote
  config : DaemonConfig
  /-- `config->global` -/
  global : GlobalConfig Double
  /-- `--keyboard PATH` -/
  kbdOverride : Option CStr
  noUinput : Bool
  inotifyFd : Option ℕ
  inotifyWatching : Bool
  haveRescan : Bool
  rescanDueMs : ℤ
  lastRescanMs : ℤ

/-! ## Polling -/

/-- The two devices of a remote. -/
inductive Side where
  | kbd
  | imu
  deriving DecidableEq

/-- The descriptor of a device. -/
def DaemonRemote.fd (r : DaemonRemote) : Side → Option ℕ
  | .kbd => r.kbd
  | .imu => r.imu

/-- A device of the daemon: the watch of `/dev/input`, or a device of a remote. -/
inductive Slot where
  | inotify
  | dev (side : Side) (i : ℕ)
  deriving DecidableEq

/-- `struct pollfd`, and the device that the descriptor belongs to. -/
structure Pollfd where
  fd : ℕ
  dev : Slot
  deriving DecidableEq

/-- An entry for an open descriptor, while there is room. -/
def pollAdd (nfds : ℕ) (fds : List Pollfd) (fd : Option ℕ) (dev : Slot) : List Pollfd :=
  match fd with
  | some fd => if fds.length < nfds then fds ++ [⟨fd, dev⟩] else fds
  | none => fds

/-- The loop of `daemon_devices_pollfds`. -/
def pollRemotes (nfds : ℕ) (fds : List Pollfd) (i : ℕ) : List DaemonRemote → List Pollfd
  | [] => fds
  | r :: rs =>
    let fds := pollAdd nfds fds r.kbd (.dev .kbd i)
    let fds := pollAdd nfds fds r.imu (.dev .imu i)
    pollRemotes nfds fds (i + 1) rs

/-- `daemon_devices_pollfds` -/
def daemonDevicesPollfds (dd : DaemonDevices) (nfds : ℕ) : List Pollfd :=
  pollRemotes nfds (pollAdd nfds [] dd.inotifyFd .inotify) 0 dd.remotes

/-! ## Handling -/

/-- `RESCAN_DEBOUNCE_MS` -/
def rescanDebounceMs : ℤ := 200

/-- `schedule_rescan` -/
def scheduleRescan (dd : DaemonDevices) (now delay : ℤ) : DaemonDevices :=
  { dd with rescanDueMs := now + delay, haveRescan := true }

/-- What reading a device gives: a frame, or the end of the file or an error, with `g_stop`. -/
inductive ReadResult where
  | frame (f : EvdevFrame)
  | gone (stop : Bool)

/-- What a call of `daemon_devices_handle` meets: the read of the device, whether draining the watch
ended in another error than `EAGAIN`, and the clock. -/
structure HandleIo where
  read : ReadResult
  watchDied : Bool
  now : ℤ

/-- `drain_inotify` -/
def drainInotify (dd : DaemonDevices) (io : HandleIo) : DaemonDevices :=
  let dd := if io.watchDied then { dd with inotifyWatching := false } else dd
  scheduleRescan dd io.now rescanDebounceMs

/-- What handling a device comes to: the result of the call, the remote, whether the device was
lost, and what was written to the virtual devices. -/
structure HandledRemote where
  ret : ℤ
  remote : DaemonRemote
  lost : Bool
  writes : FrameWrites

/-- `handle_kbd` -/
def handleKbd (r : DaemonRemote) : ReadResult → HandledRemote
  | .frame f =>
    let (pl, writes) := pipelineKeyboard r.pl f
    ⟨1, { r with pl := pl }, false, writes⟩
  | .gone true => ⟨0, r, false, ⟨[], []⟩⟩
  | .gone false => ⟨-1, { r with kbd := none }, true, ⟨[], []⟩⟩

/-- `handle_imu` -/
def handleImu (r : DaemonRemote) : ReadResult → HandledRemote
  | .frame f =>
    let (pl, mouse) := pipelineImu r.pl f
    let gate : ℤ := if pl.am.gateOpen then 1 else 0
    let pl := if pl.airmouseOn then { pl with gateLogged := gate } else pl
    ⟨1, { r with pl := pl }, false, ⟨[], mouse⟩⟩
  | .gone true => ⟨0, r, false, ⟨[], []⟩⟩
  | .gone false => ⟨-1, { r with imu := none }, true, ⟨[], []⟩⟩

/-- The handler of a device. -/
def handleSide (r : DaemonRemote) : Side → ReadResult → HandledRemote
  | .kbd => handleKbd r
  | .imu => handleImu r

/-- The loop of `daemon_devices_handle`: the device that a slot is handled on. -/
def handleTarget (idx n i : ℕ) : List DaemonRemote → Option Slot
  | [] => none
  | r :: rs =>
    if r.kbd.isSome && idx = n then some (.dev .kbd i)
    else
      let n := if r.kbd.isSome then n + 1 else n
      if r.imu.isSome && idx = n then some (.dev .imu i)
      else handleTarget idx (if r.imu.isSome then n + 1 else n) (i + 1) rs

/-- What a call of `daemon_devices_handle` comes to, and the device it was about. -/
structure Handled where
  ret : ℤ
  dd : DaemonDevices
  dev : Option Slot
  writes : FrameWrites

/-- A remote after it was handled. -/
def handleRemote (dd : DaemonDevices) (side : Side) (i : ℕ) (io : HandleIo) : Handled :=
  match dd.remotes[i]? with
  | none => ⟨0, dd, none, ⟨[], []⟩⟩
  | some r =>
    let h := handleSide r side io.read
    let dd := { dd with remotes := dd.remotes.set i h.remote }
    ⟨h.ret, if h.lost then scheduleRescan dd io.now 0 else dd, some (.dev side i), h.writes⟩

/-- The device that `daemon_devices_handle` takes a slot for. -/
def handleSlot (dd : DaemonDevices) (idx : ℕ) : Option Slot :=
  if dd.inotifyFd.isSome then
    if idx = 0 then some .inotify else handleTarget idx 1 0 dd.remotes
  else handleTarget idx 0 0 dd.remotes

/-- `daemon_devices_handle` -/
def daemonDevicesHandle (dd : DaemonDevices) (idx : ℕ) (io : HandleIo) : Handled :=
  match handleSlot dd idx with
  | none => ⟨0, dd, none, ⟨[], []⟩⟩
  | some .inotify => ⟨0, drainInotify dd io, some .inotify, ⟨[], []⟩⟩
  | some (.dev side i) => handleRemote dd side i io

/-! ## The order of the slots -/

/-- The open devices of a remote. -/
def remoteSlots (i : ℕ) (r : DaemonRemote) : List Slot :=
  (if r.kbd.isSome then [.dev .kbd i] else []) ++ if r.imu.isSome then [.dev .imu i] else []

/-- The open devices of some remotes. -/
def slotsFrom (i : ℕ) : List DaemonRemote → List Slot
  | [] => []
  | r :: rs => remoteSlots i r ++ slotsFrom (i + 1) rs

/-- The open devices of the daemon. -/
def openSlots (dd : DaemonDevices) : List Slot :=
  (if dd.inotifyFd.isSome then [.inotify] else []) ++ slotsFrom 0 dd.remotes

theorem length_remoteSlots_le (i : ℕ) (r : DaemonRemote) : (remoteSlots i r).length ≤ 2 := by
  unfold remoteSlots
  split_ifs <;> simp

theorem length_slotsFrom_le (i : ℕ) (rs : List DaemonRemote) :
    (slotsFrom i rs).length ≤ 2 * rs.length := by
  induction rs generalizing i with
  | nil => simp [slotsFrom]
  | cons r rs ih =>
    have := length_remoteSlots_le i r
    have := ih (i + 1)
    simp only [slotsFrom, List.length_append, List.length_cons]
    omega

/-- Entries are added up to the room there is. -/
theorem map_dev_pollAdd {nfds : ℕ} {fds : List Pollfd} {fd : Option ℕ} {dev : Slot}
    (h : fds.length + (if fd.isSome then 1 else 0) ≤ nfds) :
    (pollAdd nfds fds fd dev).map (·.dev) = fds.map (·.dev) ++ if fd.isSome then [dev] else [] := by
  cases fd with
  | none => simp [pollAdd]
  | some fd =>
    rw [Option.isSome_some, if_pos rfl] at h
    simp [pollAdd, show fds.length < nfds by omega]

theorem map_dev_pollRemotes {nfds i : ℕ} {fds : List Pollfd} {rs : List DaemonRemote}
    (h : fds.length + (slotsFrom i rs).length ≤ nfds) :
    (pollRemotes nfds fds i rs).map (·.dev) = fds.map (·.dev) ++ slotsFrom i rs := by
  induction rs generalizing fds i with
  | nil => simp [pollRemotes, slotsFrom]
  | cons r rs ih =>
    rw [slotsFrom, List.length_append, remoteSlots, List.length_append] at h
    have hkbd : (pollAdd nfds fds r.kbd (.dev .kbd i)).map (·.dev) =
        fds.map (·.dev) ++ if r.kbd.isSome then [.dev .kbd i] else [] := by
      refine map_dev_pollAdd ?_
      split_ifs at h ⊢ <;> (simp at h; omega)
    have himu : (pollAdd nfds (pollAdd nfds fds r.kbd (.dev .kbd i)) r.imu (.dev .imu i)).map (·.dev) =
        fds.map (·.dev) ++ remoteSlots i r := by
      rw [map_dev_pollAdd, hkbd, List.append_assoc]
      · rfl
      · have := congrArg List.length hkbd
        simp only [List.length_map, List.length_append] at this
        rw [this]
        split_ifs at h ⊢ <;> simp at h ⊢ <;> omega
    rw [pollRemotes, ih, himu, slotsFrom, List.append_assoc]
    have := congrArg List.length himu
    simp only [List.length_map, List.length_append, remoteSlots] at this h ⊢
    omega

/-- With room for all the slots hold the open devices. -/
theorem map_dev_pollfds {dd : DaemonDevices} {nfds : ℕ} (h : 1 + 2 * dd.remotes.length ≤ nfds) :
    (daemonDevicesPollfds dd nfds).map (·.dev) = openSlots dd := by
  have hlen := length_slotsFrom_le 0 dd.remotes
  have hadd : (pollAdd nfds [] dd.inotifyFd .inotify).map (·.dev) =
      if dd.inotifyFd.isSome then [.inotify] else [] := by
    rw [map_dev_pollAdd]
    · simp
    · rw [List.length_nil]
      split_ifs <;> omega
  rw [daemonDevicesPollfds, map_dev_pollRemotes, hadd, openSlots]
  have := congrArg List.length hadd
  rw [List.length_map] at this
  rw [this]
  split_ifs <;> simp <;> omega

/-- The loop over the remotes finds the device at the place of the slot. -/
theorem handleTarget_eq {idx n i : ℕ} {rs : List DaemonRemote} (h : n ≤ idx) :
    handleTarget idx n i rs = (slotsFrom i rs)[idx - n]? := by
  induction rs generalizing n i with
  | nil => simp [handleTarget, slotsFrom]
  | cons r rs ih =>
    obtain ⟨k, rfl⟩ := Nat.exists_eq_add_of_le h
    rw [handleTarget, slotsFrom, remoteSlots, Nat.add_sub_cancel_left]
    -- past the open devices of the first remote the count goes on
    have hskip (m j : ℕ) (hj : k = m + j) :
        handleTarget (n + k) (n + m) (i + 1) rs = (slotsFrom (i + 1) rs)[j]? := by
      rw [ih (by omega), show n + k - (n + m) = j by omega]
    cases r.kbd.isSome <;> cases r.imu.isSome
    · simpa using hskip 0 k (by omega)
    · rcases k with _ | k
      · simp
      · simpa using hskip 1 k (by omega)
    · rcases k with _ | k
      · simp
      · simpa using hskip 1 k (by omega)
    · rcases k with _ | _ | k
      · simp
      · simp
      · simpa [add_assoc] using hskip 2 k (by omega)

/-- Handling looks for the device at the place of the slot. -/
theorem handleSlot_eq (dd : DaemonDevices) (idx : ℕ) : handleSlot dd idx = (openSlots dd)[idx]? := by
  unfold handleSlot openSlots
  cases dd.inotifyFd.isSome with
  | false => simpa using @handleTarget_eq idx 0 0 dd.remotes (Nat.zero_le _)
  | true =>
    rcases idx with _ | idx
    · simp
    · simpa using @handleTarget_eq (idx + 1) 1 0 dd.remotes (by omega)

/-! ## What handling does to the slots -/

theorem mem_remoteSlots {side : Side} {i j : ℕ} {r : DaemonRemote} :
    .dev side j ∈ remoteSlots i r ↔ j = i ∧ (r.fd side).isSome := by
  unfold remoteSlots
  cases side <;> split_ifs <;> simp_all [DaemonRemote.fd]

theorem mem_slotsFrom {side : Side} {i j : ℕ} {rs : List DaemonRemote} :
    .dev side j ∈ slotsFrom i rs ↔ ∃ k, j = i + k ∧ ∃ r, rs[k]? = some r ∧ (r.fd side).isSome := by
  induction rs generalizing i with
  | nil => simp [slotsFrom]
  | cons r rs ih =>
    rw [slotsFrom, List.mem_append, mem_remoteSlots, ih]
    constructor
    · rintro (⟨rfl, h⟩ | ⟨k, rfl, r', hr', h⟩)
      · exact ⟨0, rfl, r, rfl, h⟩
      · exact ⟨k + 1, by omega, r', hr', h⟩
    · rintro ⟨_ | k, rfl, r', hr', h⟩
      · obtain rfl : r = r' := by simpa using hr'
        exact .inl ⟨rfl, h⟩
      · exact .inr ⟨k, by omega, r', hr', h⟩

theorem inotify_notMem_remoteSlots (i : ℕ) (r : DaemonRemote) : .inotify ∉ remoteSlots i r := by
  unfold remoteSlots
  split_ifs <;> simp

theorem inotify_notMem_slotsFrom (i : ℕ) (rs : List DaemonRemote) : .inotify ∉ slotsFrom i rs := by
  induction rs generalizing i with
  | nil => simp [slotsFrom]
  | cons r rs ih => simp [slotsFrom, inotify_notMem_remoteSlots, ih]

/-- No device has two slots. -/
theorem nodup_slotsFrom (i : ℕ) (rs : List DaemonRemote) : (slotsFrom i rs).Nodup := by
  induction rs generalizing i with
  | nil => simp [slotsFrom]
  | cons r rs ih =>
    rw [slotsFrom, List.nodup_append]
    refine ⟨?_, ih _, fun a ha b hb hab => ?_⟩
    · unfold remoteSlots
      split_ifs <;> simp
    · subst hab
      cases a with
      | inotify => exact inotify_notMem_remoteSlots _ _ ha
      | dev side j =>
        obtain ⟨rfl, -⟩ := mem_remoteSlots.mp ha
        obtain ⟨k, hk, -⟩ := mem_slotsFrom.mp hb
        omega

theorem nodup_openSlots (dd : DaemonDevices) : (openSlots dd).Nodup := by
  unfold openSlots
  split_ifs
  · exact List.nodup_cons.mpr ⟨inotify_notMem_slotsFrom _ _, nodup_slotsFrom _ _⟩
  · exact nodup_slotsFrom _ _

/-- A remote that keeps its open devices keeps the slots. -/
theorem slotsFrom_set_of_same {i k : ℕ} {rs : List DaemonRemote} {r r' : DaemonRemote}
    (hr : rs[k]? = some r) (h : ∀ j, remoteSlots j r' = remoteSlots j r) :
    slotsFrom i (rs.set k r') = slotsFrom i rs := by
  induction rs generalizing i k with
  | nil => rfl
  | cons q rs ih =>
    rcases k with _ | k
    · obtain rfl : q = r := by simpa using hr
      simp [slotsFrom, h]
    · rw [List.set_cons_succ, slotsFrom, slotsFrom, ih hr]

/-- A remote that loses a device loses its slot. -/
theorem slotsFrom_set_of_lost {side : Side} {i k : ℕ} {rs : List DaemonRemote}
    {r r' : DaemonRemote} (hr : rs[k]? = some r) (hsome : (r.fd side).isSome)
    (h : ∀ j, remoteSlots j r' = (remoteSlots j r).erase (.dev side j)) :
    slotsFrom i (rs.set k r') = (slotsFrom i rs).erase (.dev side (i + k)) := by
  induction rs generalizing i k with
  | nil => simp at hr
  | cons q rs ih =>
    rcases k with _ | k
    · obtain rfl : q = r := by simpa using hr
      rw [List.set_cons_zero, slotsFrom, slotsFrom, h, List.erase_append_left]
      · rfl
      · exact mem_remoteSlots.mpr ⟨rfl, hsome⟩
    · rw [List.set_cons_succ, slotsFrom, slotsFrom, ih hr, List.erase_append_right,
        show i + 1 + k = i + (k + 1) by omega]
      exact fun hmem => absurd (mem_remoteSlots.mp hmem).1 (by omega)

/-- Whether handling a device closes it: the read failed, and the daemon is not stopping. -/
def closes : Option Slot → ReadResult → Bool
  | some (.dev _ _), .gone false => true
  | _, _ => false

theorem openSlots_congr {dd dd' : DaemonDevices} (hfd : dd'.inotifyFd = dd.inotifyFd)
    (hrs : dd'.remotes = dd.remotes) : openSlots dd' = openSlots dd := by
  rw [openSlots, openSlots, hfd, hrs]

@[simp]
theorem scheduleRescan_remotes (dd : DaemonDevices) (now delay : ℤ) :
    (scheduleRescan dd now delay).remotes = dd.remotes := rfl

@[simp]
theorem scheduleRescan_inotifyFd (dd : DaemonDevices) (now delay : ℤ) :
    (scheduleRescan dd now delay).inotifyFd = dd.inotifyFd := rfl

@[simp]
theorem drainInotify_remotes (dd : DaemonDevices) (io : HandleIo) :
    (drainInotify dd io).remotes = dd.remotes := by
  unfold drainInotify
  split_ifs <;> rfl

@[simp]
theorem drainInotify_inotifyFd (dd : DaemonDevices) (io : HandleIo) :
    (drainInotify dd io).inotifyFd = dd.inotifyFd := by
  unfold drainInotify
  split_ifs <;> rfl

/-- Whether a device is closed does not depend on its remote. -/
theorem closes_dev (side : Side) (j k : ℕ) (read : ReadResult) :
    closes (some (.dev side j)) read = closes (some (.dev side k)) read := by
  rcases read with _ | _ | _ <;> rfl

/-- What a handler does to the devices of its remote. -/
theorem remoteSlots_handleSide (side : Side) (r : DaemonRemote) (read : ReadResult) (j : ℕ) :
    remoteSlots j (handleSide r side read).remote =
      if closes (some (.dev side j)) read then (remoteSlots j r).erase (.dev side j)
      else remoteSlots j r := by
  rcases read with f | _ | _
  · cases side <;> rfl
  · cases hk : r.kbd <;> cases hi : r.imu <;> cases side <;>
      simp [handleSide, handleKbd, handleImu, closes, remoteSlots, hk, hi]
  · cases side <;> rfl

/-- Handling a slot takes it out of the order where the device is closed, and leaves the order as it
is otherwise. -/
theorem openSlots_handle (dd : DaemonDevices) (idx : ℕ) (io : HandleIo) :
    (daemonDevicesHandle dd idx io).dev = (openSlots dd)[idx]? ∧
      openSlots (daemonDevicesHandle dd idx io).dd =
        if closes (openSlots dd)[idx]? io.read then (openSlots dd).eraseIdx idx else openSlots dd := by
  have hslot := handleSlot_eq dd idx
  unfold daemonDevicesHandle
  cases h : handleSlot dd idx with
  | none =>
    rw [h] at hslot
    simp [← hslot, closes]
  | some dev =>
    rw [h] at hslot
    obtain ⟨hidx, hget⟩ := List.getElem?_eq_some_iff.mp hslot.symm
    rw [← hslot]
    cases dev with
    | inotify =>
      refine ⟨rfl, ?_⟩
      rw [if_neg (by simp [closes])]
      exact openSlots_congr (by simp) (by simp)
    | dev side k =>
      -- the entry is that of a side that is open
      have hmem : .dev side k ∈ slotsFrom 0 dd.remotes := by
        have : .dev side k ∈ openSlots dd := hget ▸ List.getElem_mem hidx
        unfold openSlots at this
        split_ifs at this <;> simpa using this
      obtain ⟨k', hk', r, hr, hsome⟩ := mem_slotsFrom.mp hmem
      obtain rfl : k = k' := by omega
      have hopen : openSlots (handleRemote dd side k io).dd =
          (if dd.inotifyFd.isSome then [.inotify] else []) ++
            slotsFrom 0 (dd.remotes.set k (handleSide r side io.read).remote) := by
        simp only [handleRemote, hr]
        cases (handleSide r side io.read).lost <;> simp [openSlots]
      refine ⟨by simp [handleRemote, hr], ?_⟩
      simp only [hopen]
      -- only a lost side leaves the list
      cases hclose : closes (some (.dev side k)) io.read with
      | false =>
        have hsame (j : ℕ) : remoteSlots j (handleSide r side io.read).remote = remoteSlots j r := by
          rw [remoteSlots_handleSide, closes_dev side j k, hclose]
          rfl
        rw [slotsFrom_set_of_same hr hsame]
        rfl
      | true =>
        have hlost (j : ℕ) : remoteSlots j (handleSide r side io.read).remote =
            (remoteSlots j r).erase (.dev side j) := by
          rw [remoteSlots_handleSide, closes_dev side j k, hclose]
          rfl
        have herase : (openSlots dd).eraseIdx idx = (openSlots dd).erase (.dev side k) := by
          rw [← hget, (nodup_openSlots dd).erase_getElem]
        rw [slotsFrom_set_of_lost hr hsome hlost, if_pos rfl, herase, openSlots, Nat.zero_add, List.erase_append_right]
        split_ifs <;> simp

end Daemon
