import LgMagic.Daemon.Bus
import LgMagic.Daemon.Rescan
import LgMagic.Pairing.Mates

/-!
# Distinct identities

Whether the identity of a remote names one remote only. It is the MAC of the keyboard, else that of
the IMU that the keyboard was paired with, else a constant: two keyboards without a MAC get the same
one, and so do two with one MAC. Only the pairing refuses anything, and only where an IMU has to be
guessed for.

* `Unambiguous`: the identities reach every remote, and no two remotes share a file;
* `TellApart`: the keyboards of a rescan that succeeds have identities of their own;
* `sublist_rebuild`: where the identities of a rescan come from;
* `unambiguous_of_tellApart`: the runs of such rescans.
-/

namespace Daemon

open CString Evdev Pairing

/-! ## What is to hold -/

/-- The identities tell the remotes apart. -/
structure Unambiguous (dd : DaemonDevices) : Prop where
  distinct : (dd.remotes.map (·.identity)).Nodup
  /-- Every remote is reached under its identity. -/
  found : ∀ i r, dd.remotes[i]? = some r → findRemote dd r.identity = some (i, r)
  /-- No two remotes have one device file. -/
  files : dd.remotes.Pairwise fun a b => ∀ path, devicePath dd.config a.identity = some path →
    devicePath dd.config b.identity ≠ some path

/-- The keyboard as it is paired when nothing is refused. -/
def matedPair (kbds imus : List PairingInputDev) (k : PairingInputDev) : PairedRemote :=
  Slot.emit ⟨k, mateOf kbds imus k⟩

/-- The identity of a keyboard: its MAC, or that of its mate. -/
def keyboardIdentity (kbds imus : List PairingInputDev) (k : PairingInputDev) : CStr :=
  identityOf (matedPair kbds imus k).uniq

/-- A pair that the daemon has open as it is, or that it can open. -/
def available (dd : DaemonDevices) (w : Inputs) (pr : PairedRemote) : Bool :=
  dd.remotes.any (·.isAt (identityOf pr.uniq) pr.keyboard.path (imuPathOf pr)) ||
    ((remoteUinputOpen dd w (identityOf pr.uniq)).isSome && (w.opens pr.keyboard.path).isSome)

/-- The keyboards that a daemon takes over of some devices. -/
def takenKeyboards (dd : DaemonDevices) (entries : List PairingInputDev) : List PairingInputDev :=
  (entries.filter pairingIsKeyboard).filter (takesOver dd)

/-- The identity of a keyboard among some devices. -/
def identityAmong (entries : List PairingInputDev) : PairingInputDev → CStr :=
  keyboardIdentity (entries.filter pairingIsKeyboard) (entries.filter pairingIsImu)

/-- The pair of a keyboard among some devices. -/
def pairAmong (entries : List PairingInputDev) : PairingInputDev → PairedRemote :=
  matedPair (entries.filter pairingIsKeyboard) (entries.filter pairingIsImu)

/-- The keyboards of some devices that have no MAC. -/
def unknownKeyboards (dd : DaemonDevices) (entries : List PairingInputDev) :
    List PairingInputDev :=
  (takenKeyboards dd entries).filter fun k => identityAmong entries k = unknownIdentity

/-- In a rescan that succeeds the keyboards that are opened have identities of their own, and one
keyboard at most has no MAC. -/
def TellApart (s : DevSys) : DevInput → Prop
  | .rescan w => ∀ entries, scanInputs w.fs s.dd.kbdOverride = some entries →
    (rescanPairs s.dd w).isOk = true →
    (((takenKeyboards s.dd entries).filter fun k => available s.dd w (pairAmong entries k)).map
      (identityAmong entries)).Nodup ∧ (unknownKeyboards s.dd entries).length ≤ 1
  | .handle .. => True

/-- Devices with several keyboards without a MAC are an error. -/
def RefusesUnknown (s : DevSys) (w : Inputs) : Prop :=
  ∀ entries, scanInputs w.fs s.dd.kbdOverride = some entries →
    2 ≤ (unknownKeyboards s.dd entries).length →
    ∃ e, (daemonDevicesRescan s.dd s.table w).1 = .error e

/-! ## The identities reach the remotes -/

variable {dd : DaemonDevices} {w : Inputs} {t : GrabTable ℕ}

theorem findRemote_of_nodup (h : (dd.remotes.map (·.identity)).Nodup) {i : ℕ} {r : DaemonRemote}
    (hr : dd.remotes[i]? = some r) : findRemote dd r.identity = some (i, r) := by
  obtain ⟨hi, hget⟩ := List.getElem?_eq_some_iff.mp hr
  have hidx : dd.remotes.findIdx? (·.identity = r.identity) = some i := by
    refine List.findIdx?_eq_some_iff_getElem.mpr ⟨hi, by simp [hget], fun j hj => ?_⟩
    have hne := (List.pairwise_iff_getElem.mp (List.pairwise_map.mp h)) j i (by omega) hi hj
    simpa [hget] using hne
  simp [findRemote, hidx, hr]

/-- The device files of two identities differ. -/
theorem devicePath_injective {dc : DaemonConfig} {a b path : CStr}
    (ha : devicePath dc a = some path) (hb : devicePath dc b = some path) : a = b := by
  have hval {identity : CStr} (h : devicePath dc identity = some path) :
      path = dc.configRoot ++ .lit "/devices.d/" ++ identity ++ .lit ".toml" := by
    simp only [devicePath, Option.bind_eq_bind, Option.bind_eq_some_iff, pathJoin_eq_some] at h
    obtain ⟨p, ⟨-, rfl⟩, q, ⟨-, rfl⟩, -, rfl⟩ := h
    rfl
  have := congrArg Subtype.val ((hval ha).symm.trans (hval hb))
  simp only [CStr.append_val, List.append_assoc, List.append_cancel_left_eq,
    List.append_cancel_right_eq] at this
  exact Subtype.ext this

/-- Distinct identities are all that is needed. -/
theorem unambiguous_of_nodup (h : (dd.remotes.map (·.identity)).Nodup) : Unambiguous dd where
  distinct := h
  found _ _ hr := findRemote_of_nodup h hr
  files := (List.pairwise_map.mp h).imp fun hne _ ha hb => hne (devicePath_injective ha hb)

/-! ## The identities of a rescan -/

theorem remoteOpen_identity {identity kbdPath imuPath : CStr} {r : DaemonRemote}
    (h : (remoteOpen dd w t identity kbdPath imuPath).2 = some r) :
    r.identity = identity ∧ (remoteUinputOpen dd w identity).isSome = true ∧
      (w.opens kbdPath).isSome = true := by
  unfold remoteOpen at h
  cases hu : remoteUinputOpen dd w identity with
  | none => simp [hu] at h
  | some u =>
    cases hk : w.opens kbdPath with
    | none => simp [hu, hk] at h
    | some d =>
      simp only [hu, hk, Option.some.injEq] at h
      exact ⟨by rw [← h], rfl, rfl⟩

/-- The remotes of the loop are pairs that are available, under their identities. -/
theorem sublist_rebuild (pairs : List PairedRemote) :
    ((rebuild dd t w pairs).new.map (·.identity)).Sublist
      ((pairs.filter (available dd w)).map fun pr => identityOf pr.uniq) := by
  have hrun (prs : List PairedRemote) (b : Rebuild)
      (hold : ∀ e, some e ∈ b.old → e ∈ dd.remotes) :
      ∃ l, (prs.foldl (rebuildStep dd w) b).new.map (·.identity) = b.new.map (·.identity) ++ l ∧
        l.Sublist ((prs.filter (available dd w)).map fun pr => identityOf pr.uniq) := by
    induction prs generalizing b with
    | nil => exact ⟨[], by simp, List.Sublist.refl _⟩
    | cons pr prs ih =>
      -- the pair adds nothing, or its own identity
      obtain ⟨l₁, hnew, hl₁, hold'⟩ : ∃ l₁, (rebuildStep dd w b pr).new.map (·.identity) =
          b.new.map (·.identity) ++ l₁ ∧
          l₁.Sublist (([pr].filter (available dd w)).map fun pr => identityOf pr.uniq) ∧
          ∀ e, some e ∈ (rebuildStep dd w b pr).old → e ∈ dd.remotes := by
        rcases steal_cases (identityOf pr.uniq) pr.keyboard.path (imuPathOf pr) b.old with
          ⟨o₁, e, o₂, heq, hat, hsteal⟩ | ⟨-, hsteal⟩
        · have he : e ∈ dd.remotes := hold e (by simp [heq])
          have havail : available dd w pr = true := by
            simp only [available, Bool.or_eq_true, List.any_eq_true]
            exact .inl ⟨e, he, hat⟩
          have hid : e.identity = identityOf pr.uniq := by
            simp only [DaemonRemote.isAt, Bool.and_eq_true, decide_eq_true_eq] at hat
            exact hat.1.1
          refine ⟨[identityOf pr.uniq], by simp [rebuildStep, hsteal, hid], by simp [havail], ?_⟩
          simp only [rebuildStep, hsteal]
          intro e' he'
          apply hold
          rw [heq]
          simp only [List.mem_append, List.mem_cons, reduceCtorEq, false_or] at he' ⊢
          exact he'.imp_right .inr
        · cases hopen : (remoteOpen dd w b.table (identityOf pr.uniq) pr.keyboard.path
            (imuPathOf pr)).2 with
          | none => exact ⟨[], by simp [rebuildStep, hsteal, hopen], by simp,
              by simpa [rebuildStep, hsteal] using hold⟩
          | some r =>
            obtain ⟨hid, huinput, hkbd⟩ := remoteOpen_identity hopen
            have havail : available dd w pr = true := by simp [available, huinput, hkbd]
            exact ⟨[identityOf pr.uniq], by simp [rebuildStep, hsteal, hopen, hid],
              by simp [havail], by simpa [rebuildStep, hsteal] using hold⟩
      obtain ⟨l₂, hrest, hl₂⟩ := ih _ hold'
      refine ⟨l₁ ++ l₂, by rw [List.foldl_cons, hrest, hnew, List.append_assoc], ?_⟩
      rw [← List.singleton_append, List.filter_append, List.map_append]
      exact hl₁.append hl₂
  obtain ⟨l, hl, hsub⟩ := hrun pairs ⟨t, dd.remotes.map some, []⟩ (by simp)
  rw [rebuild, hl]
  exact hsub

/-- The pairs of a rescan are the keyboards that are taken over, with their mates. -/
theorem rescanPairs_eq {pairs : List PairedRemote} (h : rescanPairs dd w = .ok pairs) :
    ∃ entries, scanInputs w.fs dd.kbdOverride = some entries ∧
      pairs = (takenKeyboards dd entries).map (pairAmong entries) := by
  unfold rescanPairs at h
  split at h
  · cases h
  · next entries hscan =>
    split at h
    · cases h
    · next paired hpaired =>
      injection h with h
      refine ⟨entries, hscan, ?_⟩
      -- there is room for as many pairs as there are devices
      have hroom : (entries.filter pairingIsKeyboard).length ≤ entries.length :=
        List.length_filter_le _ _
      have hslots : paired = (matedSlots (entries.filter pairingIsKeyboard)
          (entries.filter pairingIsImu)).map Slot.emit := by
        have hmatch : pairingMatch entries entries.length =
            (pairRun (entries.filter pairingIsKeyboard) (entries.filter pairingIsImu)).map
              fun slots => (slots.map Slot.emit).take entries.length := rfl
        rw [hmatch] at hpaired
        match hrun : pairRun (entries.filter pairingIsKeyboard) (entries.filter pairingIsImu),
          hpaired with
        | .ok slots, hpaired =>
          injection hpaired with hpaired
          rw [← hpaired, pairRun_eq_mates hrun]
          exact List.take_of_length_le (by simpa [matedSlots] using hroom)
      rw [← h, hslots, matedSlots, List.map_map, List.filter_map]
      rfl

/-! ## Runs -/

variable {s : DevSys}

/-- Handling a slot keeps the identities. -/
theorem identities_handle (dd : DaemonDevices) (idx : ℕ) (io : HandleIo) :
    (daemonDevicesHandle dd idx io).dd.remotes.map (·.identity) = dd.remotes.map (·.identity) := by
  have hside (r : DaemonRemote) (side : Side) (read : ReadResult) :
      (handleSide r side read).remote.identity = r.identity := by
    rcases read with f | _ | _ <;> cases side <;> rfl
  unfold daemonDevicesHandle
  split
  · rfl
  · simp
  · next side i _ =>
    unfold handleRemote
    split
    · rfl
    · next r hr =>
      have hset : (dd.remotes.set i (handleSide r side io.read).remote).map (·.identity) =
          dd.remotes.map (·.identity) := by
        obtain ⟨hi, hget⟩ := List.getElem?_eq_some_iff.mp hr
        have hi' : i < (dd.remotes.map (·.identity)).length := by simpa using hi
        have hid : dd.remotes[i].identity = (dd.remotes.map (·.identity))[i] := by simp
        rw [List.map_set, hside, ← hget, hid, List.set_getElem_self]
      dsimp only
      split_ifs
      · exact hset
      · exact hset

/-- The identities are distinct after a rescan whose keyboards can be told apart. -/
theorem nodup_rescan (h : (s.dd.remotes.map (·.identity)).Nodup) (htell : TellApart s (.rescan w)) :
    ((s.rescan w).dd.remotes.map (·.identity)).Nodup := by
  cases hpairs : rescanPairs s.dd w with
  | error e => simpa [DevSys.rescan, rescan_of_error hpairs] using h
  | ok pairs =>
    obtain ⟨entries, hscan, rfl⟩ := rescanPairs_eq hpairs
    obtain ⟨hnodup, -⟩ := htell entries hscan (by rw [hpairs]; rfl)
    simp only [DevSys.rescan, rescan_of_ok hpairs]
    have hsub := @sublist_rebuild (rescanStart s.dd w) w s.table
      ((takenKeyboards s.dd entries).map (pairAmong entries))
    rw [List.filter_map, List.map_map] at hsub
    exact hsub.nodup hnodup

/-- Several keyboards without a MAC are refused where they can be told apart otherwise. -/
theorem refusesUnknown_of_tellApart (htell : TellApart s (.rescan w)) : RefusesUnknown s w := by
  intro entries hscan hmany
  cases hpairs : rescanPairs s.dd w with
  | error e => exact ⟨e, by rw [rescan_of_error hpairs]⟩
  | ok pairs =>
    have hone := (htell entries hscan (by rw [hpairs]; rfl)).2
    omega

/-- The nodes of two keyboards, without an IMU and without MACs. -/
def twoKeyboardsInputs : Inputs := nodeInputs [(.lit "event0", kbdName), (.lit "event1", kbdName)]

end Daemon
