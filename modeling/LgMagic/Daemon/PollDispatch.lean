import LgMagic.Daemon.Devices
import Mathlib.Data.List.Nodup

/-!
# A pass of the main loop

What the main loop of `daemon_main.c` does with the result of a poll: each slot that is ready is
handled in turn. The slots were filled before the poll, the device of a slot is looked up again when
it is handled. Once a device is closed the slots after it are taken for the devices that follow
theirs.

* `PollPass`: the descriptors of a poll, which of them are ready and what reading them gives;
* `PollPass.Agrees`: every slot that is ready is handled once, on the device that was put there;
* `PollPass.agrees_iff`: exactly the passes agree where no slot that is ready comes after one whose
  device is closed.
-/

namespace Daemon

/-- A pass of the main loop. -/
structure PollPass where
  dd : DaemonDevices
  /-- The size of the array: the main loop makes room for two devices of each remote. -/
  nfds : ℕ
  /-- Whether the bus has a slot after the devices. -/
  bus : Bool
  room : 1 + 2 * dd.remotes.length + (if bus then 1 else 0) ≤ nfds
  /-- `revents & (POLLIN | POLLHUP | POLLERR)` of a slot. -/
  ready : ℕ → Bool
  /-- What handling a slot meets. -/
  io : ℕ → HandleIo

namespace PollPass

variable (pass : PollPass)

/-- The entries that are filled in before the poll. -/
def fds : List Pollfd := daemonDevicesPollfds pass.dd pass.nfds

/-- The number of slots of devices. -/
def ndev : ℕ := pass.fds.length

/-- The loop over the slots: the slots handled, with the devices. The slot of the bus is not handled
here. -/
def dispatchFrom (dd : DaemonDevices) : List ℕ → List (ℕ × Option Slot)
  | [] => []
  | i :: is =>
    if pass.bus && i = pass.ndev then dispatchFrom dd is
    else if pass.ready i then
      let h := daemonDevicesHandle dd i (pass.io i)
      (i, h.dev) :: dispatchFrom h.dd is
    else dispatchFrom dd is

/-- All slots of a pass. -/
def dispatch : List (ℕ × Option Slot) :=
  pass.dispatchFrom pass.dd (List.range (pass.ndev + if pass.bus then 1 else 0))

/-- The device that was put in a slot. -/
def slot (i : ℕ) : Option Slot := pass.fds[i]?.map (·.dev)

/-- Every slot of a device that is ready is handled once, on the device that was put there. -/
def Agrees : Prop :=
  pass.dispatch = ((List.range pass.ndev).filter pass.ready).map fun i => (i, pass.slot i)

/-- Whether the slot is ready and handling it closes its device. -/
def closesAt (i : ℕ) : Bool := pass.ready i && closes (pass.slot i) (pass.io i).read

/-- Whether the slot of a device is ready. -/
def devReady (i : ℕ) : Bool := !(pass.bus && i = pass.ndev) && pass.ready i

/-- The handling of some slots on the devices that were put there. -/
def expectedFrom (is : List ℕ) : List (ℕ × Option Slot) :=
  (is.filter pass.devReady).map fun i => (i, pass.slot i)

theorem slot_eq : pass.slot = fun i => (openSlots pass.dd)[i]? := by
  have hroom := pass.room
  funext i
  rw [slot, ← List.getElem?_map, fds, map_dev_pollfds (by split_ifs at hroom <;> omega)]

theorem ndev_eq : pass.ndev = (openSlots pass.dd).length := by
  have hroom := pass.room
  rw [ndev, fds, ← @map_dev_pollfds pass.dd pass.nfds (by split_ifs at hroom <;> omega),
    List.length_map]

theorem dispatchFrom_cons (dd : DaemonDevices) (i : ℕ) (is : List ℕ) :
    pass.dispatchFrom dd (i :: is) =
      if pass.devReady i then
        (i, (openSlots dd)[i]?) :: pass.dispatchFrom (daemonDevicesHandle dd i (pass.io i)).dd is
      else pass.dispatchFrom dd is := by
  by_cases hbus : (pass.bus && decide (i = pass.ndev)) = true
  · have hready : pass.devReady i = false := by simp [devReady, hbus]
    rw [dispatchFrom, if_pos hbus, if_neg (by simp [hready])]
  · have hready : pass.devReady i = pass.ready i := by simp [devReady, hbus]
    rw [dispatchFrom, if_neg hbus, hready, ← (openSlots_handle dd i (pass.io i)).1]

theorem expectedFrom_cons (i : ℕ) (is : List ℕ) :
    pass.expectedFrom (i :: is) =
      if pass.devReady i then (i, pass.slot i) :: pass.expectedFrom is else pass.expectedFrom is := by
  rw [expectedFrom, List.filter_cons]
  split_ifs <;> rfl

/-- While the devices are not where they were put, no slot may be ready. -/
theorem dispatchFrom_shifted {dd : DaemonDevices} {is : List ℕ}
    (h : ∀ j ∈ is, pass.devReady j = true → (openSlots dd)[j]? ≠ pass.slot j) :
    pass.dispatchFrom dd is = pass.expectedFrom is ↔ ∀ j ∈ is, pass.devReady j = false := by
  induction is with
  | nil => simp [dispatchFrom, expectedFrom]
  | cons i is ih =>
    rw [dispatchFrom_cons, expectedFrom_cons]
    cases hready : pass.devReady i with
    | false => simpa [hready] using ih fun j hj => h j (List.mem_cons_of_mem _ hj)
    | true => simp [hready, h i List.mem_cons_self hready]

/-- While the devices are where they were put, no slot that is ready may follow one that is
closed. -/
theorem dispatchFrom_unshifted {dd : DaemonDevices} {is : List ℕ}
    (hopen : openSlots dd = openSlots pass.dd) (hsorted : is.Pairwise (· < ·))
    (hlt : ∀ j ∈ is, pass.devReady j = true → j < pass.ndev) :
    pass.dispatchFrom dd is = pass.expectedFrom is ↔
      is.Pairwise fun i j => (pass.devReady i && pass.closesAt i) = true → pass.devReady j = false := by
  induction is generalizing dd with
  | nil => simp [dispatchFrom, expectedFrom]
  | cons i is ih =>
    obtain ⟨hi, hsorted⟩ := List.pairwise_cons.mp hsorted
    have hlt' : ∀ j ∈ is, pass.devReady j = true → j < pass.ndev := fun j hj =>
      hlt j (List.mem_cons_of_mem _ hj)
    rw [dispatchFrom_cons, expectedFrom_cons, List.pairwise_cons]
    cases hready : pass.devReady i with
    | false => simpa using ih hopen hsorted hlt'
    | true =>
      have hslot : (openSlots dd)[i]? = pass.slot i := by rw [hopen, slot_eq]
      have hready' : pass.ready i = true := by
        simp only [devReady, Bool.and_eq_true] at hready
        exact hready.2
      have hnext := (openSlots_handle dd i (pass.io i)).2
      rw [hslot] at hnext
      rw [if_pos rfl, if_pos rfl, hslot, List.cons_eq_cons]
      cases hclose : closes (pass.slot i) (pass.io i).read with
      | false =>
        rw [hclose, if_neg Bool.false_ne_true] at hnext
        simpa [closesAt, hclose] using ih (hnext.trans hopen) hsorted hlt'
      | true =>
        rw [hclose, if_pos rfl, hopen] at hnext
        -- from here on a slot is taken for the device of the next one
        have hshift : ∀ j ∈ is, pass.devReady j = true →
            (openSlots (daemonDevicesHandle dd i (pass.io i)).dd)[j]? ≠ pass.slot j := by
          intro j hj hjready heq
          have hj' : j < (openSlots pass.dd).length := pass.ndev_eq ▸ hlt' j hj hjready
          have hij := hi j hj
          rw [hnext, slot_eq, List.getElem?_eraseIdx_of_ge hij.le] at heq
          have := (List.getElem?_inj hj' (nodup_openSlots pass.dd)).mp heq.symm
          omega
        simp only [closesAt, hclose, hready', Bool.and_true, true_and, forall_const,
          pass.dispatchFrom_shifted hshift]
        refine ⟨fun hnone => ⟨hnone, List.pairwise_of_forall_mem_list fun a _ b hb _ => hnone b hb⟩,
          And.left⟩

/-- A pass agrees exactly where no slot of a device that is ready comes after one that is ready and
whose device is closed. -/
theorem agrees_iff : pass.Agrees ↔
    ∀ i j, i < j → j < pass.ndev → pass.closesAt i = true → pass.ready j = false := by
  have hdev {i : ℕ} (hi : i < pass.ndev) : pass.devReady i = pass.ready i := by
    simp [devReady, hi.ne]
  have hmem {j : ℕ} (hj : j ∈ List.range (pass.ndev + if pass.bus then 1 else 0))
      (hready : pass.devReady j = true) : j < pass.ndev := by
    simp only [devReady, Bool.and_eq_true, Bool.not_eq_true', Bool.and_eq_false_iff,
      decide_eq_false_iff_not] at hready
    rw [List.mem_range] at hj
    split_ifs at hj with hbus
    · have := hready.1.resolve_left (by simp [hbus])
      omega
    · exact hj
  -- the bus is not among the devices that are expected
  have hexpected : pass.expectedFrom (List.range (pass.ndev + if pass.bus then 1 else 0)) =
      ((List.range pass.ndev).filter pass.ready).map fun i => (i, pass.slot i) := by
    have hrange : (List.range pass.ndev).filter pass.devReady =
        (List.range pass.ndev).filter pass.ready :=
      List.filter_congr fun i hi => hdev (List.mem_range.mp hi)
    rw [expectedFrom, ← hrange]
    split_ifs with hbus
    · rw [List.range_succ, List.filter_append]
      simp [devReady, hbus]
    · rfl
  have hclose {i : ℕ} : pass.closesAt i = true → pass.ready i = true := fun h => by
    simp only [closesAt, Bool.and_eq_true] at h
    exact h.1
  rw [Agrees, ← hexpected, dispatch,
    pass.dispatchFrom_unshifted rfl List.pairwise_lt_range fun j hj => hmem hj,
    List.pairwise_iff_getElem]
  simp only [List.length_range, List.getElem_range, Bool.and_eq_true]
  -- both sides speak of pairs; only a ready device counts
  constructor
  · intro h i j hij hj hi
    have hi' : i < pass.ndev := hij.trans hj
    have := h i j (by omega) (by omega) hij ⟨(hdev hi').trans (hclose hi), hi⟩
    rwa [hdev hj] at this
  · rintro h i j - hj hij ⟨-, hi⟩
    by_contra hready
    have hready := Bool.eq_true_of_not_eq_false hready
    have hj' := hmem (List.mem_range.mpr hj) hready
    rw [hdev hj', h i j hij hj' hi] at hready
    exact absurd hready (by decide)

end PollPass

/-! ## A remote that is lost beside another -/

/-- A remote with open devices. -/
def openRemote (identity : CStr) (kbd imu : Option ℕ) : DaemonRemote :=
  ⟨identity, .empty, .empty, kbd, imu, none, none, Profiles.deviceConfigInit, pipelineInit⟩

/-- Two remotes; the keyboard of the first is lost while its IMU is ready. -/
def lostPass : PollPass where
  dd := ⟨[openRemote (.lit "AA:BB:CC:DD:EE:01") (some 5) (some 6),
      openRemote (.lit "AA:BB:CC:DD:EE:02") (some 7) none], defaultDirs,
    ⟨CNum.ofRat (1 / 5), true, CNum.ofRat 60, CNum.ofRat 400⟩, none, false, some 3, true, false, 0, 0⟩
  nfds := 5
  bus := false
  room := by decide
  ready i := i = 1 || i = 2
  io i := ⟨if i = 1 then .gone false else .frame { keys := [], wheel := 0 }, false, 0⟩

/-- The frame of the IMU is read from the keyboard of the other remote. -/
theorem lostPass_not_agrees : ¬ lostPass.Agrees := by
  have hdispatch : lostPass.dispatch = [(1, some (.dev .kbd 0)), (2, some (.dev .kbd 1))] := by
    decide +kernel
  have hslots : ((List.range lostPass.ndev).filter lostPass.ready).map
      (fun i => (i, lostPass.slot i)) =
      [(1, some (.dev .kbd 0)), (2, some (.dev .imu 0))] := by
    decide +kernel
  rw [PollPass.Agrees, hdispatch, hslots]
  decide

end Daemon
