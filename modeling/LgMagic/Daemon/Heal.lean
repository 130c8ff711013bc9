import LgMagic.Daemon.Rescan

/-!
# Lost devices and rescans

Whether a rescan gives a remote back the devices that it lost. A remote that is opened anew has a
keyboard, and an IMU where it has a path for one. A remote that is kept stays as it is: one that
lost a device, and is found with the same identity at the same nodes, is never opened again.

* `Healed`: a remote has its devices;
* `healed_rebuild`: a rescan that keeps healed remotes only leaves healed remotes only;
* `healed_of_noLossKept`: the runs where no remote is kept that lost a device.
-/

namespace Daemon

open Evdev Pairing

/-- The keyboard of a remote is open, and its IMU where it has a path for one. -/
def Healed (r : DaemonRemote) : Prop :=
  r.kbd.isSome = true ∧ (r.imuPath ≠ .empty → r.imu.isSome = true)

/-- Every remote that a rescan finds unchanged has its devices. -/
def NoLossKept (s : DevSys) : DevInput → Prop
  | .rescan w => ∀ pairs, rescanPairs s.dd w = .ok pairs → ∀ pr ∈ pairs, ∀ e ∈ s.dd.remotes,
      e.isAt (identityOf pr.uniq) pr.keyboard.path (imuPathOf pr) = true → Healed e
  | .handle .. => True

/-- A remote that is opened has its devices. -/
theorem healed_remoteOpen {dd : DaemonDevices} {w : Inputs} {t : GrabTable ℕ}
    {identity kbdPath imuPath : CStr} :
    ∀ r ∈ (remoteOpen dd w t identity kbdPath imuPath).2, Healed r := by
  intro r hr
  rcases remoteOpen_cases dd w t identity kbdPath imuPath with hopen |
    ⟨d, r', -, -, hopen, hkbd, himu, hpath⟩
  · simp [hopen] at hr
  · obtain rfl : r' = r := by simpa [hopen] using hr
    refine ⟨by simp [hkbd], fun hne => ?_⟩
    rw [himu]
    rw [hpath] at hne
    unfold imuOpen at hne ⊢
    split_ifs at hne ⊢ with hempty
    · exact absurd hempty hne
    · split at hne
      · exact absurd rfl hne
      · simp

/-- One pair of the loop adds a healed remote, or one of the old ones that is at the pair. -/
theorem healed_rebuildStep {dd : DaemonDevices} {w : Inputs} {b : Rebuild} {pr : PairedRemote}
    (hnew : ∀ r ∈ b.new, Healed r)
    (hkept : ∀ e, some e ∈ b.old →
      e.isAt (identityOf pr.uniq) pr.keyboard.path (imuPathOf pr) = true → Healed e) :
    (∀ r ∈ (rebuildStep dd w b pr).new, Healed r) ∧
      ∀ e, some e ∈ (rebuildStep dd w b pr).old → some e ∈ b.old := by
  rcases steal_cases (identityOf pr.uniq) pr.keyboard.path (imuPathOf pr) b.old with
    ⟨l₁, e, l₂, hold, hat, hsteal⟩ | ⟨-, hsteal⟩
  · simp only [rebuildStep, hsteal]
    refine ⟨fun r hr => ?_, fun e' he' => ?_⟩
    · rcases List.mem_append.mp hr with hr | hr
      · exact hnew r hr
      · rw [List.mem_singleton.mp hr]
        exact hkept e (by simp [hold]) hat
    · rw [hold]
      simp only [List.mem_append, List.mem_cons] at he' ⊢
      rcases he' with h | h | h
      · exact .inl h
      · cases h
      · exact .inr (.inr h)
  · simp only [rebuildStep, hsteal]
    refine ⟨fun r hr => ?_, fun e he => he⟩
    rcases List.mem_append.mp hr with hr | hr
    · exact hnew r hr
    · exact healed_remoteOpen r (Option.mem_toList.mp hr)

/-- The remotes of a rescan have their devices where those have them that are kept. -/
theorem healed_rebuild {dd : DaemonDevices} {w : Inputs} {t : GrabTable ℕ}
    {pairs : List PairedRemote}
    (hkept : ∀ pr ∈ pairs, ∀ e ∈ dd.remotes,
      e.isAt (identityOf pr.uniq) pr.keyboard.path (imuPathOf pr) = true → Healed e) :
    ∀ r ∈ (rebuild dd t w pairs).new, Healed r := by
  have hrun (prs : List PairedRemote) (b : Rebuild) (hnew : ∀ r ∈ b.new, Healed r)
      (hkept : ∀ pr ∈ prs, ∀ e, some e ∈ b.old →
        e.isAt (identityOf pr.uniq) pr.keyboard.path (imuPathOf pr) = true → Healed e) :
      ∀ r ∈ (prs.foldl (rebuildStep dd w) b).new, Healed r := by
    induction prs generalizing b with
    | nil => exact hnew
    | cons pr prs ih =>
      obtain ⟨hnew', hsub⟩ := @healed_rebuildStep dd w b pr hnew
        (hkept pr List.mem_cons_self)
      exact ih _ hnew' fun pr' hpr' e he => hkept pr' (List.mem_cons_of_mem _ hpr') e (hsub e he)
  refine hrun pairs _ (by simp) fun pr hpr e he => hkept pr hpr e ?_
  simpa using he

/-- In the runs where no remote is kept that lost a device, every remote has its devices after every
rescan that succeeds. -/
theorem healed_of_noLossKept {ok : DaemonDevices → Inputs → Prop} {s : DevSys}
    (h : ((deviceSystem ok).restrict NoLossKept).Reachable s) (hs : s.rescanned = true) :
    ∀ r ∈ s.dd.remotes, Healed r := by
  cases h with
  | init h => simp [h.2.2] at hs
  | @step s₀ _ i h₀ hstep =>
    obtain ⟨hstep, hkept⟩ := hstep
    cases i with
    | handle idx io =>
      obtain rfl := hstep
      cases hs
    | rescan w =>
      obtain ⟨-, rfl⟩ := hstep
      cases hpairs : rescanPairs s₀.dd w with
      | error e => simp [DevSys.rescan, rescan_of_error hpairs, Except.isOk, Except.toBool] at hs
      | ok pairs =>
        simp only [DevSys.rescan, rescan_of_ok hpairs]
        exact healed_rebuild (hkept pairs hpairs)

theorem healed_remoteFound : (startDev.rescan remoteInputs).dd.remotes.length = 1 ∧
    ∀ r ∈ (startDev.rescan remoteInputs).dd.remotes, Healed r :=
  ⟨by decide +kernel, @healed_of_noLossKept (fun _ _ => True) _
    (.step (.rescan remoteInputs) (.init (s := startDev) ⟨rfl, rfl, rfl⟩)
      ⟨⟨trivial, rfl⟩, fun _ _ _ _ _ he => absurd he List.not_mem_nil⟩) (by decide +kernel)⟩

/-- Every node that is there can be opened. -/
def Openable (_ : DaemonDevices) (w : Inputs) : Prop :=
  ∀ path, (w.fs.node path).isSome = true → (w.opens path).isSome = true

/-- The keyboard of a remote is lost, and the nodes are the same at the next rescan. -/
def keyboardLost : DevSys :=
  ((startDev.rescan remoteInputs).handle 0 ⟨.gone false, false, 0⟩).rescan remoteInputs

/-- A remote that lost its keyboard is kept without one. -/
theorem keyboardLost_not_healed : ∃ s, (deviceSystem Openable).Reachable s ∧ s.rescanned = true ∧
    ∃ r ∈ s.dd.remotes, ¬ Healed r := by
  have hopen (dd : DaemonDevices) : Openable dd remoteInputs := by
    intro path hpath
    simp only [remoteInputs, nodeInputs, Option.isSome_map, List.find?_isSome,
      List.findIdx?_isSome, List.any_eq_true] at hpath ⊢
    exact hpath
  have hreach : (deviceSystem Openable).Reachable keyboardLost :=
    .step (.rescan remoteInputs)
      (.step (.handle 0 ⟨.gone false, false, 0⟩)
        (.step (.rescan remoteInputs) (.init (s := startDev) ⟨rfl, rfl, rfl⟩) ⟨hopen _, rfl⟩) rfl)
      ⟨hopen _, rfl⟩
  have hkbd : keyboardLost.dd.remotes.map (·.kbd) = [none] := by decide +kernel
  have hrescanned : keyboardLost.rescanned = true := by decide +kernel
  obtain ⟨r, hr⟩ := List.length_eq_one_iff.mp (by simpa using congrArg List.length hkbd)
  rw [hr, List.map_cons, List.cons.injEq] at hkbd
  exact ⟨keyboardLost, hreach, hrescanned, r, by simp [hr], fun h => by simp [Healed, hkbd.1] at h⟩

end Daemon
