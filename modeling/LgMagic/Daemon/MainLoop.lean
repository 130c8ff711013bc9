import LgMagic.Daemon.Bus
import LgMagic.Daemon.PollDispatch
import LgMagic.Daemon.Rescan
import LgMagic.Lib.Timer

/-!
# The main loop

The loop of `daemon_main.c`: the configuration is read again where a signal asked for it, the input
nodes are scanned again where that is due, and otherwise the daemon waits for events until it is. A
change in `/dev/input` is scanned for after a while, a lost device at once, and everything every two
seconds.

* `daemonDevicesRescanDelayMs`, `DaemonDevices.timer`: when the next rescan is due;
* `SameDevices`: what requests and reloads leave alone;
* `Iteration`, `mainLoopStep`, `mainLoopSystem`: the loop, with a clock;
* `wellPaced_mainLoop`: what an iteration waits for, and that a loss is scanned for next;
* `onTime_mainLoop`: rescans are never late.
-/

namespace Daemon

open Posix Prog

/-! ## The timer of the rescans -/

/-- `RESCAN_INTERVAL_MS` -/
def rescanIntervalMs : ℤ := 2000

/-- `daemon_devices_rescan_delay_ms` -/
def daemonDevicesRescanDelayMs (dd : DaemonDevices) (now : ℤ) : ℤ :=
  let due :=
    if dd.haveRescan then (if dd.rescanDueMs - now < 0 then 0 else dd.rescanDueMs - now) else -1
  let fallback :=
    if dd.lastRescanMs + rescanIntervalMs - now < 0 then 0
    else dd.lastRescanMs + rescanIntervalMs - now
  if due < 0 ∨ fallback < due then fallback else due

/-- The rescans as a job that is due every two seconds, and earlier where it is scheduled. -/
def DaemonDevices.timer (dd : DaemonDevices) : Timer :=
  ⟨dd.lastRescanMs, if dd.haveRescan then some dd.rescanDueMs else none⟩

/-- The delay is the one of the timer. -/
theorem rescanDelayMs_eq (dd : DaemonDevices) (now : ℤ) :
    daemonDevicesRescanDelayMs dd now = dd.timer.delay rescanIntervalMs now := by
  rw [daemonDevicesRescanDelayMs, Timer.delay, Timer.deadline, DaemonDevices.timer]
  cases dd.haveRescan with
  | false =>
    simp only [Bool.false_eq_true, if_false]
    split_ifs <;> omega
  | true =>
    simp only [if_true]
    split_ifs <;> omega

@[simp]
theorem timer_scheduleRescan (dd : DaemonDevices) (now delay : ℤ) :
    (scheduleRescan dd now delay).timer = dd.timer.schedule (now + delay) := rfl

@[simp]
theorem timer_rescanStart (dd : DaemonDevices) (w : Inputs) :
    (rescanStart dd w).timer = Timer.fire w.now := rfl

/-- A rescan counts from its start, also where it fails. -/
theorem timer_rescan (s : DevSys) (w : Inputs) : (s.rescan w).dd.timer = Timer.fire w.now := by
  unfold DevSys.rescan daemonDevicesRescan
  dsimp only
  split <;> rfl

/-! ## What requests leave alone -/

/-- The same devices are open, and the next rescan is due at the same time. -/
structure SameDevices (dd dd' : DaemonDevices) : Prop where
  fds : dd'.remotes.map (fun r => (r.kbd, r.imu)) = dd.remotes.map fun r => (r.kbd, r.imu)
  inotifyFd : dd'.inotifyFd = dd.inotifyFd
  timer : dd'.timer = dd.timer

theorem SameDevices.refl (dd : DaemonDevices) : SameDevices dd dd := ⟨rfl, rfl, rfl⟩

theorem SameDevices.length {dd dd' : DaemonDevices} (h : SameDevices dd dd') :
    dd'.remotes.length = dd.remotes.length := by
  simpa using congrArg List.length h.fds

theorem SameDevices.openSlots {dd dd' : DaemonDevices} (h : SameDevices dd dd') :
    Daemon.openSlots dd' = Daemon.openSlots dd := by
  have hslots : ∀ (i : ℕ) {rs rs' : List DaemonRemote},
      rs'.map (fun r => (r.kbd, r.imu)) = rs.map (fun r => (r.kbd, r.imu)) →
        slotsFrom i rs' = slotsFrom i rs := by
    intro i rs
    induction rs generalizing i with
    | nil =>
      intro rs' hrs
      rw [List.map_eq_nil_iff.mp hrs]
    | cons r rs ih =>
      intro rs' hrs
      obtain ⟨r', rs', rfl, hr, hrs⟩ := List.map_eq_cons_iff.mp hrs
      obtain ⟨hkbd, himu⟩ := Prod.mk.inj hr
      rw [slotsFrom, slotsFrom, ih _ hrs, remoteSlots, remoteSlots, hkbd, himu]
  rw [Daemon.openSlots, Daemon.openSlots, h.inotifyFd, hslots 0 h.fds]

/-- One remote has another configuration. -/
theorem sameDevices_setRemote {dd : DaemonDevices} {i : ℕ} {r r' : DaemonRemote}
    (hr : dd.remotes[i]? = some r) (hkbd : r'.kbd = r.kbd) (himu : r'.imu = r.imu) :
    SameDevices dd (dd.setRemote i r') := by
  refine ⟨?_, rfl, rfl⟩
  rw [DaemonDevices.setRemote, List.map_set, hkbd, himu]
  refine List.ext_getElem? fun k => ?_
  rw [List.getElem?_set]
  split_ifs with hk hlt
  · subst hk
    simp [hr]
  · subst hk
    simp_all
  · rfl

/-- Configuring a remote leaves its devices alone. -/
theorem always_configureRemote (dd : DaemonDevices) (r : DaemonRemote)
    (dc : Profiles.DeviceConfig Binary64.Double) :
    (configureRemote dd r dc).Always fun r' => r'.kbd = r.kbd ∧ r'.imu = r.imu := by
  unfold configureRemote
  dsimp only
  split_ifs
  · exact always_bind _ fun _ => always_pure ⟨rfl, rfl⟩
  · exact always_bind _ fun _ => always_pure ⟨rfl, rfl⟩

/-- The end of the methods that change a configuration. -/
theorem always_mutateRemote {dd : DaemonDevices} {i : ℕ} {r : DaemonRemote}
    (hr : dd.remotes[i]? = some r) (strerror : Bytes)
    (mutate : Profiles.DeviceConfig Binary64.Double → Profiles.DeviceConfig Binary64.Double) :
    (mutateRemote dd strerror i r mutate).Always fun res => SameDevices dd res.2 := by
  have hput {r' : DaemonRemote} (h : r'.kbd = r.kbd ∧ r'.imu = r.imu) :
      SameDevices dd (dd.setRemote i r') := sameDevices_setRemote hr h.1 h.2
  have hsave : (mutateAndSave dd r mutate).Always fun res =>
      res.2.kbd = r.kbd ∧ res.2.imu = r.imu := by
    unfold mutateAndSave
    refine always_bind _ fun saved => ?_
    -- whether the save failed or not, the remote is configured at the end
    cases saved with
    | error e =>
      refine Always.seq ?_ fun r' h => always_pure h
      exact always_bind _ fun read => always_configureRemote dd _ _
    | ok u => exact (always_configureRemote dd _ _).seq fun r' h => always_pure h
  exact hsave.seq fun res h => always_pure (hput h)

/-- Requests that are refused or answered. -/
theorem always_gated {dd : DaemonDevices} {sender action : CStr} {body : Handler}
    (h : body.Always fun res => SameDevices dd res.2) :
    (gated dd sender action body).Always fun res => SameDevices dd res.2 := by
  unfold gated
  refine always_bind _ fun reply => ?_
  cases reply with
  | none => exact h
  | some reply => exact always_pure (.refl dd)

theorem always_onRemote {dd : DaemonDevices} {mac : CStr} {body : ℕ → DaemonRemote → Handler}
    (h : ∀ i r, dd.remotes[i]? = some r → (body i r).Always fun res => SameDevices dd res.2) :
    (onRemote dd mac body).Always fun res => SameDevices dd res.2 := by
  unfold onRemote
  split_ifs
  · cases hfind : findRemote dd mac with
    | none => exact always_pure (.refl dd)
    | some ir =>
      obtain ⟨j, -, hget⟩ := Option.bind_eq_some_iff.mp hfind
      obtain ⟨r, hr, rfl⟩ := Option.map_eq_some_iff.mp hget
      exact h j r hr
  · exact always_pure (.refl dd)

/-- A reload leaves the devices of every remote alone. -/
theorem always_daemonDevicesReload (dd : DaemonDevices) :
    (daemonDevicesReload dd).Always fun dd' => SameDevices dd dd' := by
  have hloop (dd : DaemonDevices) (rs : List DaemonRemote) : (reloadRemotes dd rs).Always fun rs' =>
      rs'.map (fun r => (r.kbd, r.imu)) = rs.map fun r => (r.kbd, r.imu) := by
    induction rs with
    | nil => exact always_pure rfl
    | cons r rs ih =>
      have hone : (reloadRemote dd r).Always fun r' => r'.kbd = r.kbd ∧ r'.imu = r.imu := by
        unfold reloadRemote
        refine always_bind _ fun read => ?_
        -- a file that is refused leaves the remote as it is
        obtain ⟨e | u, ndc⟩ := read
        · exact always_pure ⟨rfl, rfl⟩
        · exact always_configureRemote dd r ndc
      unfold reloadRemotes
      refine hone.seq fun r' hr' => ih.seq fun rs' hrs' => always_pure ?_
      rw [List.map_cons, List.map_cons, hr'.1, hr'.2, hrs']
  unfold daemonDevicesReload
  refine always_bind _ fun newg => ?_
  exact (hloop _ _).seq fun rs' hrs' => always_pure ⟨hrs', rfl, rfl⟩

/-- No request opens or closes a device, or puts off a rescan. -/
theorem always_handleRequest (dd : DaemonDevices) (strerror : Bytes) (sender : CStr)
    (req : Request) : (handleRequest dd strerror sender req).Always fun res => SameDevices dd res.2 := by
  cases req with
  | listDevices => exact always_pure (.refl dd)
  | getStatus mac =>
    refine always_onRemote fun i r _ => ?_
    dsimp only
    generalize statusText dd r = text
    split_ifs
    · exact always_pure (.refl dd)
    · exact always_pure (.refl dd)
  | setProfile mac profile =>
    refine always_gated (always_onRemote fun i r hr => ?_)
    split_ifs
    · exact always_pure (.refl dd)
    · refine always_bind _ fun saved => ?_
      cases saved with
      | error e => exact always_pure (.refl dd)
      | ok u =>
        refine always_bind _ fun read => ?_
        exact (always_configureRemote dd _ _).seq fun r' h =>
          always_pure (sameDevices_setRemote hr h.1 h.2)
  | mapButton mac src dst =>
    simp only [handleRequest, methodMapButton]
    split_ifs
    · exact always_pure (.refl dd)
    · exact always_gated (always_onRemote fun i r hr => always_mutateRemote hr strerror _)
  | resetButtons mac =>
    exact always_gated (always_onRemote fun i r hr => always_mutateRemote hr strerror _)
  | setScrollSpeed mac v | setSensitivity mac v =>
    refine always_gated (always_onRemote fun i r hr => ?_)
    split_ifs
    · exact always_pure (.refl dd)
    · exact always_mutateRemote hr strerror _
  | setCalibPath mac path =>
    exact always_gated (always_onRemote fun i r hr => always_mutateRemote hr strerror _)
  | reload =>
    exact always_gated ((always_daemonDevicesReload dd).seq fun dd' h => always_pure h)

/-! ## The loop -/

/-- The daemon between two iterations: its devices, the size of the array of descriptors, whether
the bus is there, and the time. -/
structure MainLoop where
  dev : DevSys
  nfds : ℕ
  bus : Bool
  now : ℤ

/-- What an iteration comes to after the delay was computed. -/
inductive Outcome where
  /-- The nodes are scanned. -/
  | rescan (w : Inputs)
  /-- The poll is interrupted, fails or times out. -/
  | idle (woken : ℤ)
  /-- Slots are ready: those of devices, with what handling them meets, and that of the bus. -/
  | ready (woken : ℤ) (slots : ℕ → Bool) (io : ℕ → HandleIo) (bus : Bool)

/-- An iteration: whether `g_reload` is set, the time that the delay is computed for, and the time
at the end. An iteration with `g_stop`, and one without memory for the array, leave the loop. -/
structure Iteration where
  reload : Bool
  check : ℤ
  outcome : Outcome
  finish : ℤ

/-- The configuration is read again, from whatever the files are. -/
def ConfigReloaded (reload : Bool) (dd dd' : DaemonDevices) : Prop :=
  if reload then ∃ fs tr fs', Run busMachine (daemonDevicesReload dd) fs tr (some dd') fs'
  else dd' = dd

/-- `daemon_bus_process`: one request is handled, or none. -/
def BusProcessed (dd dd' : DaemonDevices) : Prop :=
  dd' = dd ∨ ∃ strerror sender req fs tr reply fs',
    Run busMachine (handleRequest dd strerror sender req) fs tr (some (reply, dd')) fs'

/-- The entries that the array needs. -/
def pollNeed (dd : DaemonDevices) (bus : Bool) : ℕ :=
  1 + 2 * dd.remotes.length + if bus then 1 else 0

/-- A slot of a device. -/
def DevSys.dispatchSlot (slots : ℕ → Bool) (io : ℕ → HandleIo) (s : DevSys) (i : ℕ) : DevSys :=
  if slots i then s.handle i (io i) else s

/-- The loop over the slots of the devices; the number of slots is from before the poll. -/
def DevSys.dispatch (s : DevSys) (nfds : ℕ) (slots : ℕ → Bool) (io : ℕ → HandleIo) : DevSys :=
  (List.range (daemonDevicesPollfds s.dd nfds).length).foldl (dispatchSlot slots io) s

/-- An iteration of the loop of `main`. -/
def mainLoopStep (s : MainLoop) (l : Iteration) (s' : MainLoop) : Prop :=
  ∃ dd, ConfigReloaded l.reload s.dev.dd dd ∧
    let dev : DevSys := { s.dev with dd := dd }
    let delay := daemonDevicesRescanDelayMs dd l.check
    s'.nfds = max s.nfds (pollNeed dd s.bus) ∧ s'.now = l.finish ∧
      match l.outcome with
      | .rescan w => delay ≤ 0 ∧ s'.dev = dev.rescan w ∧ s'.bus = s.bus
      | .idle _ => 0 < delay ∧ s'.dev = dev ∧ s'.bus = s.bus
      | .ready _ slots io bus => 0 < delay ∧
        let dev := dev.dispatch s'.nfds slots io
        -- the slot of the bus comes last; an error closes the bus
        if s.bus && bus then ∃ dd', BusProcessed dev.dd dd' ∧ s'.dev = { dev with dd := dd' }
        else s'.dev = dev ∧ s'.bus = s.bus

/-- The clock does not go back. -/
def Iteration.InOrder (now : ℤ) (l : Iteration) : Prop :=
  now ≤ l.check ∧
    match l.outcome with
    | .rescan w => l.check ≤ w.now ∧ w.now ≤ l.finish
    | .idle woken => l.check ≤ woken ∧ woken ≤ l.finish
    | .ready woken slots io _ => l.check ≤ woken ∧ woken ≤ l.finish ∧
      ∀ i, slots i = true → woken ≤ (io i).now ∧ (io i).now ≤ l.finish

/-- The runs of the loop; the nodes have been scanned once before it. -/
def mainLoopSystem : TransitionSystem MainLoop Iteration where
  init s := s.dev.dd.haveRescan = false ∧ s.dev.dd.lastRescanMs ≤ s.now
  step s l s' := l.InOrder s.now ∧ mainLoopStep s l s'

/-- Besides waiting, an iteration takes at most the given time before a rescan starts or the poll
returns, and as much after it. -/
def Iteration.Timely (δ : ℤ) (s : MainLoop) (l : Iteration) : Prop :=
  match l.outcome with
  | .rescan w => w.now ≤ s.now + δ ∧ l.finish ≤ w.now + δ
  | .idle woken | .ready woken _ _ _ =>
    woken ≤ l.check + daemonDevicesRescanDelayMs s.dev.dd l.check + δ ∧ l.finish ≤ woken + δ

/-! ## Handling slots -/

/-- A lost device is scanned for at once: the devices are the ones of before, or a rescan is due. -/
def LossNoted (finish : ℤ) (slots : List Slot) (dd : DaemonDevices) : Prop :=
  openSlots dd = slots ∨ ∃ due, dd.timer.due = some due ∧ due ≤ finish

/-- The watch has the first slot. -/
theorem eq_zero_of_handleSlot {dd : DaemonDevices} {i : ℕ} (h : handleSlot dd i = some .inotify) :
    i = 0 := by
  rw [handleSlot_eq, openSlots] at h
  by_contra hi
  -- the slots of the remotes come after the watch
  have hlen : (if dd.inotifyFd.isSome then [Slot.inotify] else []).length ≤ i := by
    split_ifs
    · exact Nat.one_le_iff_ne_zero.mpr hi
    · exact Nat.zero_le i
  rw [List.getElem?_append_right hlen] at h
  exact inotify_notMem_slotsFrom 0 dd.remotes (List.mem_of_getElem? h)

/-- Whether handling a side of a remote loses the device. -/
theorem lost_handleSide (side : Side) (r : DaemonRemote) (read : ReadResult) :
    (handleSide r side read).lost = closes (some (.dev side 0)) read := by
  cases side <;> rcases read with f | _ | _ <;> rfl

/-- The timer after a slot was handled: as before, scheduled for the time of the handling, or by the
watch for a later one. -/
theorem timer_handle (s : DevSys) (i : ℕ) (io : HandleIo) :
    ((s.handle i io).dd.timer = s.dd.timer ∧ openSlots (s.handle i io).dd = openSlots s.dd) ∨
    (s.handle i io).dd.timer = s.dd.timer.schedule io.now ∨
    (i = 0 ∧ openSlots (s.handle i io).dd = openSlots s.dd ∧
      (s.handle i io).dd.timer = s.dd.timer.schedule (io.now + rescanDebounceMs)) := by
  have hslots := (openSlots_handle s.dd i io).2
  rw [← handleSlot_eq] at hslots
  have hdd : (s.handle i io).dd = (daemonDevicesHandle s.dd i io).dd := rfl
  rw [hdd]
  cases hslot : handleSlot s.dd i with
  | none =>
    rw [hslot] at hslots
    refine .inl ⟨?_, hslots⟩
    rw [daemonDevicesHandle, hslot]
  | some dev =>
    rw [hslot] at hslots
    cases dev with
    | inotify =>
      refine .inr (.inr ⟨eq_zero_of_handleSlot hslot, hslots, ?_⟩)
      rw [daemonDevicesHandle, hslot]
      dsimp only
      rw [drainInotify]
      split_ifs <;> rfl
    | dev side k =>
      cases hr : s.dd.remotes[k]? with
      | none =>
        refine .inl ⟨?_, ?_⟩ <;> simp [daemonDevicesHandle, hslot, handleRemote, hr]
      | some r =>
        have hlost := lost_handleSide side r io.read
        rw [closes_dev side 0 k] at hlost
        -- a device that is lost has a rescan scheduled for at once
        cases hclose : closes (some (.dev side k)) io.read with
        | false =>
          rw [hclose] at hslots hlost
          refine .inl ⟨?_, hslots⟩
          simp only [daemonDevicesHandle, hslot, handleRemote, hr, hlost]
          rfl
        | true =>
          rw [hclose] at hlost
          refine .inr (.inl ?_)
          simp only [daemonDevicesHandle, hslot, handleRemote, hr, hlost, if_true]
          rw [timer_scheduleRescan, add_zero]
          rfl

section

variable {slots : ℕ → Bool} {io : ℕ → HandleIo} {woken finish : ℤ} {devs : List Slot} {s : DevSys}

/-- After the first slot every loss is noted, and no schedule puts off the rescan for one. -/
theorem LossNoted.dispatchSlot {i : ℕ} (h : LossNoted finish devs s.dd)
    (hi : i = 0 → openSlots s.dd = devs) (hio : slots i = true → (io i).now ≤ finish) :
    LossNoted finish devs (s.dispatchSlot slots io i).dd := by
  rw [DevSys.dispatchSlot]
  split_ifs with hready
  · rcases timer_handle s i (io i) with ⟨htimer, hsame⟩ | htimer | ⟨hzero, hsame, -⟩
    · rcases h with hopen | ⟨due, hdue, hle⟩
      · exact .inl (hsame.trans hopen)
      · exact .inr ⟨due, by rw [htimer, hdue], hle⟩
    -- this loss, or an earlier one that is due by then
    · exact .inr ⟨(io i).now, by rw [htimer]; rfl, hio hready⟩
    · exact .inl (hsame.trans (hi hzero))
  · exact h

/-- Every loss of a pass is noted. -/
theorem lossNoted_dispatch (nfds : ℕ) (hio : ∀ i, slots i = true → (io i).now ≤ finish) :
    LossNoted finish (openSlots s.dd) (s.dispatch nfds slots io).dd := by
  rw [DevSys.dispatch]
  cases (daemonDevicesPollfds s.dd nfds).length with
  | zero => exact .inl rfl
  | succ n =>
    rw [List.range_succ_eq_map, List.foldl_cons]
    have hfirst : LossNoted finish (openSlots s.dd) (s.dispatchSlot slots io 0).dd :=
      LossNoted.dispatchSlot (.inl rfl) (fun _ => rfl) (hio 0)
    -- the others are not the first
    generalize s.dispatchSlot slots io 0 = s₁ at hfirst
    induction List.range n generalizing s₁ with
    | nil => exact hfirst
    | cons i is ih =>
      rw [List.map_cons, List.foldl_cons]
      exact ih _ (hfirst.dispatchSlot (fun h => absurd h (Nat.succ_ne_zero i)) (hio _))

/-- A pass leaves the timer, or schedules a rescan for a time after the poll. -/
theorem timer_dispatch (nfds : ℕ) (hio : ∀ i, slots i = true → woken ≤ (io i).now) :
    (s.dispatch nfds slots io).dd.timer = s.dd.timer ∨
      ∃ due, woken ≤ due ∧ (s.dispatch nfds slots io).dd.timer = s.dd.timer.schedule due := by
  have hone (s : DevSys) (i : ℕ) : (s.dispatchSlot slots io i).dd.timer = s.dd.timer ∨
      ∃ due, woken ≤ due ∧ (s.dispatchSlot slots io i).dd.timer = s.dd.timer.schedule due := by
    rw [DevSys.dispatchSlot]
    split_ifs with hready
    · have hnow := hio i hready
      rcases timer_handle s i (io i) with ⟨htimer, -⟩ | htimer | ⟨-, -, htimer⟩
      · exact .inl htimer
      · exact .inr ⟨_, hnow, htimer⟩
      · refine .inr ⟨_, ?_, htimer⟩
        rw [rescanDebounceMs]
        omega
    · exact .inl rfl
  rw [DevSys.dispatch]
  induction List.range (daemonDevicesPollfds s.dd nfds).length using List.reverseRecOn with
  | nil => exact .inl rfl
  | append_singleton is i ih =>
    rw [List.foldl_append, List.foldl_cons, List.foldl_nil]
    -- the last schedule counts
    rcases hone (is.foldl (DevSys.dispatchSlot slots io) s) i with htimer | ⟨due, hdue, htimer⟩
    · rw [htimer]
      exact ih
    · refine .inr ⟨due, hdue, ?_⟩
      rcases ih with hbefore | ⟨due', -, hbefore⟩
      · rw [htimer, hbefore]
      · rw [htimer, hbefore]
        rfl

end

/-! ## Iterations -/

theorem ConfigReloaded.sameDevices {reload : Bool} {dd dd' : DaemonDevices}
    (h : ConfigReloaded reload dd dd') : SameDevices dd dd' := by
  rw [ConfigReloaded] at h
  split_ifs at h
  · obtain ⟨fs, tr, fs', hrun⟩ := h
    exact hrun.always (always_daemonDevicesReload dd)
  · rw [h]
    exact .refl dd

theorem BusProcessed.sameDevices {dd dd' : DaemonDevices} (h : BusProcessed dd dd') :
    SameDevices dd dd' := by
  rcases h with rfl | ⟨strerror, sender, req, fs, tr, reply, fs', hrun⟩
  · exact .refl dd'
  · exact hrun.always (always_handleRequest dd strerror sender req)

section

variable {s s' : MainLoop} {l : Iteration} {δ : ℤ}

/-- The rescans of the loop. -/
def MainLoop.timer (s : MainLoop) : Timer := s.dev.dd.timer

/-- When the next rescan is due. -/
def MainLoop.deadline (s : MainLoop) : ℤ := s.timer.deadline rescanIntervalMs

/-- What a poll waits for: all devices that are open, with room for the bus after them. -/
structure PollsAll (s : MainLoop) (bus : Bool) (nfds : ℕ) (fds : List Pollfd) : Prop where
  devices : fds.map (·.dev) = openSlots s.dev.dd
  bus : bus = true → fds.length < nfds

/-- The timer between two iterations: a wait, which may schedule a rescan for a time that is not
before the poll returned. -/
def Waited (t t' : Timer) (woken : ℤ) : Prop := t' = t ∨ ∃ due, woken ≤ due ∧ t' = t.schedule due

theorem length_openSlots_le (dd : DaemonDevices) :
    (openSlots dd).length ≤ 1 + 2 * dd.remotes.length := by
  have hlen := length_slotsFrom_le 0 dd.remotes
  rw [openSlots, List.length_append]
  split_ifs <;> simp only [List.length_cons, List.length_nil] <;> omega

/-- What an iteration does: a rescan where one is due, and a poll of all devices otherwise. -/
theorem mainLoopStep_cases (hstep : mainLoopSystem.step s l s') :
    s'.now = l.finish ∧ s.now ≤ l.check ∧
    ((∃ w, l.outcome = .rescan w ∧ s.deadline ≤ l.check ∧ l.check ≤ w.now ∧ w.now ≤ s'.now ∧
        s'.timer = .fire w.now) ∨
      ∃ dd woken, SameDevices s.dev.dd dd ∧ (∀ w, l.outcome ≠ .rescan w) ∧ l.check < s.deadline ∧
        l.check ≤ woken ∧ woken ≤ s'.now ∧
        (∀ δ, l.Timely δ s → woken ≤ s.deadline + δ ∧ s'.now ≤ woken + δ) ∧
        PollsAll s s.bus s'.nfds (daemonDevicesPollfds dd s'.nfds) ∧
        Waited s.timer s'.timer woken ∧ LossNoted s'.now (openSlots s.dev.dd) s'.dev.dd) := by
  obtain ⟨⟨hcheck, horder⟩, dd, hreload, hnfds, hnow, hstep⟩ := hstep
  have hsame := hreload.sameDevices
  have hdelay : daemonDevicesRescanDelayMs dd l.check = s.timer.delay rescanIntervalMs l.check := by
    rw [rescanDelayMs_eq, hsame.timer]
    rfl
  refine ⟨hnow, hcheck, ?_⟩
  -- the array has room for two devices of each remote and for the bus
  have hpolls : PollsAll s s.bus s'.nfds (daemonDevicesPollfds dd s'.nfds) := by
    have hneed : 1 + 2 * dd.remotes.length + (if s.bus then 1 else 0) ≤ s'.nfds := by
      rw [hnfds]
      exact le_max_right _ _
    have hmap : (daemonDevicesPollfds dd s'.nfds).map (·.dev) = openSlots dd :=
      map_dev_pollfds ((Nat.le_add_right _ _).trans hneed)
    refine ⟨hmap.trans hsame.openSlots, fun hbus => ?_⟩
    have hlength := congrArg List.length hmap
    rw [List.length_map] at hlength
    have hopen := length_openSlots_le dd
    rw [hbus, if_pos rfl] at hneed
    omega
  have hwait (h : 0 < daemonDevicesRescanDelayMs dd l.check) : l.check < s.deadline := by
    rw [hdelay] at h
    exact not_le.mp fun hle => absurd (Timer.delay_nonpos_iff.mpr hle) (not_le.mpr h)
  have hlate (h : 0 < daemonDevicesRescanDelayMs dd l.check) :
      s.deadline = l.check + daemonDevicesRescanDelayMs s.dev.dd l.check := by
    rw [hdelay] at h
    rw [rescanDelayMs_eq]
    exact (Timer.add_delay h).symm
  cases houtcome : l.outcome with
  | rescan w =>
    rw [houtcome] at horder hstep
    obtain ⟨hdue, hdev, -⟩ := hstep
    refine .inl ⟨w, rfl, ?_, horder.1, hnow ▸ horder.2, ?_⟩
    · rw [hdelay] at hdue
      exact Timer.delay_nonpos_iff.mp hdue
    · rw [MainLoop.timer, hdev]
      exact timer_rescan _ w
  | idle woken =>
    rw [houtcome] at horder hstep
    obtain ⟨hdelayed, hdev, -⟩ := hstep
    refine .inr ⟨dd, woken, hsame, by simp, hwait hdelayed, horder.1, hnow ▸ horder.2, ?_, hpolls,
      .inl ?_, .inl ?_⟩
    · intro δ htimely
      rw [Iteration.Timely, houtcome] at htimely
      rw [hlate hdelayed, hnow]
      exact htimely
    · rw [MainLoop.timer, hdev]
      exact hsame.timer
    · rw [hdev]
      exact hsame.openSlots
  | ready woken slots io bus =>
    rw [houtcome] at horder hstep
    obtain ⟨hdelayed, hstep⟩ := hstep
    obtain ⟨hwoken, hfinish, hio⟩ := horder
    -- what the handlers did stays where a request of the bus follows
    have hdev : SameDevices
        ((DevSys.mk dd s.dev.table s.dev.rescanned).dispatch s'.nfds slots io).dd s'.dev.dd := by
      dsimp only at hstep
      split_ifs at hstep
      · obtain ⟨dd', hbus, hdev⟩ := hstep
        rw [hdev]
        exact hbus.sameDevices
      · rw [hstep.1]
        exact .refl _
    refine .inr ⟨dd, woken, hsame, by simp, hwait hdelayed, hwoken, hnow ▸ hfinish, ?_, hpolls,
      ?_, ?_⟩
    · intro δ htimely
      rw [Iteration.Timely, houtcome] at htimely
      rw [hlate hdelayed, hnow]
      exact htimely
    · rw [Waited, MainLoop.timer, MainLoop.timer, hdev.timer, ← hsame.timer]
      exact timer_dispatch s'.nfds fun i hi => (hio i hi).1
    · have hloss := @lossNoted_dispatch slots io l.finish (DevSys.mk dd s.dev.table s.dev.rescanned)
        s'.nfds fun i hi => (hio i hi).2
      rw [hnow, ← hsame.openSlots]
      rcases hloss with hopen | ⟨due, hdue, hle⟩
      · exact .inl (hdev.openSlots.trans hopen)
      · exact .inr ⟨due, by rw [hdev.timer, hdue], hle⟩

/-- The rescan before a time that the clock shows. -/
theorem inductive_last_le : mainLoopSystem.Inductive fun s => s.timer.last ≤ s.now where
  init s h := h.2
  step s l s' h hstep := by
    obtain ⟨hnow, hcheck, hcases⟩ := mainLoopStep_cases hstep
    rcases hcases with ⟨w, -, -, -, hfinish, htimer⟩ |
      ⟨dd, woken, -, -, -, hwoken, hfinish, -, -, htimer, -⟩
    · rw [htimer]
      exact hfinish
    · have hlast : s'.timer.last = s.timer.last := by
        rcases htimer with htimer | ⟨due, -, htimer⟩ <;> rw [htimer]
        rfl
      rw [hlast]
      omega

/-! ## What the loop waits for -/

/-- An iteration that polls. -/
def Iteration.Polls (l : Iteration) : Prop := ∀ w, l.outcome ≠ .rescan w

/-- What an iteration waits for, and what is scanned for next. -/
structure WellPaced (s : MainLoop) (l : Iteration) (s' : MainLoop) : Prop where
  /-- A poll waits for some time, and for two seconds at most. -/
  delay : l.Polls → 0 < daemonDevicesRescanDelayMs s.dev.dd l.check ∧
    daemonDevicesRescanDelayMs s.dev.dd l.check ≤ rescanIntervalMs
  /-- It waits for all open devices, and the bus has its entry. -/
  polls : l.Polls → ∃ dd, SameDevices s.dev.dd dd ∧
    PollsAll s s.bus s'.nfds (daemonDevicesPollfds dd s'.nfds)
  /-- Where devices were lost, the nodes are scanned before the next poll. -/
  loss : l.Polls → openSlots s'.dev.dd ≠ openSlots s.dev.dd →
    ∀ l₂ s₂, mainLoopSystem.step s' l₂ s₂ → ¬ l₂.Polls
  /-- Between two rescans without a poll there are two seconds. -/
  pause : ∀ w l₂ s₂ w₂, l.outcome = .rescan w → mainLoopSystem.step s' l₂ s₂ →
    l₂.outcome = .rescan w₂ → w.now + rescanIntervalMs ≤ l₂.check

/-- Every iteration of every run is well paced. -/
theorem wellPaced_mainLoop (hreach : mainLoopSystem.Reachable s)
    (hstep : mainLoopSystem.step s l s') : WellPaced s l s' := by
  have hlast := hreach.of_inductive inductive_last_le
  obtain ⟨hnow, hcheck, hcases⟩ := mainLoopStep_cases hstep
  rcases hcases with ⟨w, houtcome, hdue, hchecked, hfinish, htimer⟩ |
    ⟨dd, woken, hsame, hpolls, hdue, hwoken, hfinish, -, hall, htimer, hloss⟩
  · have hnot : ¬ l.Polls := fun h => h w houtcome
    refine ⟨fun h => absurd h hnot, fun h => absurd h hnot, fun h => absurd h hnot, ?_⟩
    intro w' l₂ s₂ w₂ hw' hnext hw₂
    obtain rfl : w' = w := Outcome.rescan.inj (hw'.symm.trans houtcome)
    -- after a rescan nothing is scheduled
    have hdeadline : s'.deadline = w'.now + rescanIntervalMs := by
      rw [MainLoop.deadline, htimer]
      rfl
    obtain ⟨-, -, hcases₂⟩ := mainLoopStep_cases hnext
    rcases hcases₂ with ⟨w₃, -, hdue₂, -⟩ | ⟨-, -, -, hpolls₂, -⟩
    · rwa [hdeadline] at hdue₂
    · exact absurd hw₂ (hpolls₂ w₂)
  · have hnot : ∀ w, l.outcome ≠ .rescan w := hpolls
    refine ⟨fun _ => ?_, fun _ => ⟨dd, hsame, hall⟩, fun _ hne l₂ s₂ hnext => ?_, ?_⟩
    · have hbound : s.deadline ≤ s.timer.last + rescanIntervalMs := Timer.deadline_le_last
      have hdelay : daemonDevicesRescanDelayMs s.dev.dd l.check = max 0 (s.deadline - l.check) :=
        rescanDelayMs_eq s.dev.dd l.check
      rw [hdelay]
      refine ⟨lt_max_of_lt_right (by omega), max_le (by decide) (by omega)⟩
    -- the loss is due by the end of the iteration, so the next one does not wait
    · obtain ⟨due, hdue', hle⟩ := hloss.resolve_left hne
      obtain ⟨-, hcheck₂, hcases₂⟩ := mainLoopStep_cases hnext
      have hdeadline : s'.deadline ≤ due := Timer.deadline_le_due hdue'
      rcases hcases₂ with ⟨w₂, hw₂, -⟩ | ⟨-, -, -, -, hlt, -⟩
      · exact fun h => h w₂ hw₂
      · omega
    · intro w l₂ s₂ w₂ hw
      exact absurd hw (hnot w)

/-! ## Rescans in time -/

/-- The runs whose iterations, and what comes before the first, take little time besides waiting. -/
def timelyLoop (δ : ℤ) : TransitionSystem MainLoop Iteration where
  init s := mainLoopSystem.init s ∧ s.now ≤ s.dev.dd.lastRescanMs + δ
  step := (mainLoopSystem.restrict (Iteration.Timely δ)).step

/-- An iteration is a turn of the timer. -/
theorem turn_of_step (hstep : (timelyLoop δ).step s l s') :
    Timer.Turn rescanIntervalMs δ (s.timer, s.now) (s'.timer, s'.now) := by
  obtain ⟨hstep, htimely⟩ := hstep
  obtain ⟨hnow, hcheck, hcases⟩ := mainLoopStep_cases hstep
  rcases hcases with ⟨w, houtcome, hdue, hchecked, hfinish, htimer⟩ |
    ⟨dd, woken, -, -, hdue, hwoken, hfinish, hlate, -, htimer, -⟩
  · rw [Iteration.Timely, houtcome] at htimely
    rw [htimer]
    exact .fire hcheck hdue hchecked htimely.1 hfinish (hnow ▸ htimely.2)
  · obtain ⟨hwake, hend⟩ := hlate δ htimely
    rcases htimer with htimer | ⟨due, hdue', htimer⟩
    · rw [htimer]
      exact .wait hcheck hdue hwoken hwake hfinish hend
    · rw [htimer]
      exact .reschedule hcheck hdue hwoken hwake hfinish hend hdue'

/-- The loop is on time in every state. -/
theorem inductive_onTime (hδ : 0 ≤ δ) :
    (timelyLoop δ).Inductive fun s => Timer.OnTime rescanIntervalMs δ (s.timer, s.now) where
  init s h := by
    obtain ⟨⟨hnone, -⟩, hnow⟩ := h
    have hdeadline : s.timer.deadline rescanIntervalMs =
        s.dev.dd.lastRescanMs + rescanIntervalMs := by
      simp [MainLoop.timer, DaemonDevices.timer, Timer.deadline, hnone]
    have hinterval : 0 ≤ rescanIntervalMs := by decide
    rw [Timer.OnTime, hdeadline]
    dsimp only
    omega
  step s l s' _ hstep := (turn_of_step hstep).onTime (by decide) hδ

end

/-- The daemon before its loop, without a remote. -/
def startLoop : MainLoop := ⟨startDev, 0, false, 0⟩

/-- A poll that times out. -/
def quietIteration : Iteration := ⟨false, 1, .idle 2001, 2002⟩

/-- The daemon after it. -/
def quietLoop : MainLoop := ⟨startDev, 1, false, 2002⟩

theorem quietIteration_step : mainLoopSystem.step startLoop quietIteration quietLoop := by
  refine ⟨⟨by decide, by decide, by decide⟩, startDev.dd, ?_, rfl, rfl, by decide, rfl, rfl⟩
  rw [ConfigReloaded, quietIteration, if_neg Bool.false_ne_true]
  rfl

theorem wellPaced_quietIteration : WellPaced startLoop quietIteration quietLoop :=
  wellPaced_mainLoop (.init ⟨rfl, by decide⟩) quietIteration_step

end Daemon
