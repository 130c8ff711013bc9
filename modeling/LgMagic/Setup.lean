import LgMagic.Daemon.Config
import LgMagic.Daemon.Identity

/-!
# The setup wizard's files

Where `cmd_setup.c` writes the calibration and the device entry of a remote. The wizard replaces the
colons of the MAC, the daemon looks the MAC up as it is, so the daemon reads neither of the files
that the wizard writes for a remote with a MAC.

* `sanitizeMac`, `setupPaths`;
* `setupPaths_ne_daemon`: the paths differ for every MAC.
-/

namespace Setup

open CString Daemon Profiles Binary64

/-- `sanitize_mac`; `none` when the buffer is too small. -/
def sanitizeMac (uniq : CStr) (outsz : ℕ) : Option CStr :=
  if uniq.val.length + 1 > outsz then none
  else some (CStr.ofBuffer (uniq.val.map fun c => if c = 0x3A then 0x5F else c))

/-- `STATE_DIR` -/
def stateDir : CStr := .lit "/var/lib/lgmagic"

/-- `DEVICES_D_DIR` -/
def devicesDDir : CStr := .lit "/etc/lgmagic/devices.d"

/-- `CALIB_JSON` -/
def calibJson : CStr := .lit "/etc/lgmagic/calib.json"

/-- `STATE_PATH_MAX` -/
def statePathMax : ℕ := 128

/-- The files the wizard writes: the calibration, and the device entry where there is one. -/
structure Paths where
  calibPath : CStr
  tomlPath : CStr
  deriving DecidableEq

/-- The paths that `cmd_setup` builds from the `uniq` of the remote. -/
def setupPaths (uniq : CStr) (daemonMode : Bool) : Paths :=
  if uniq.val.length = 17 then
    let mac := (sanitizeMac uniq 18).getD .empty
    let dir := CStr.snprintf 64 (stateDir ++ .lit "/" ++ mac)
    ⟨CStr.snprintf statePathMax (dir ++ .lit "/calibration.json"),
      CStr.snprintf statePathMax (devicesDDir ++ .lit "/" ++ mac ++ .lit ".toml")⟩
  else if daemonMode then
    ⟨CStr.snprintf statePathMax (stateDir ++ .lit "/unknown/calibration.json"), .empty⟩
  else ⟨CStr.snprintf statePathMax calibJson, .empty⟩

/-- The sanitised MAC has no colon. -/
theorem colon_notMem_sanitizeMac {uniq mac : CStr} {n : ℕ} (h : sanitizeMac uniq n = some mac) :
    (0x3A : UInt8) ∉ mac.val := by
  unfold sanitizeMac at h
  split_ifs at h
  injection h with h
  subst h
  intro hmem
  obtain ⟨c, -, hc⟩ := List.mem_map.mp ((List.takeWhile_prefix _).subset hmem)
  split_ifs at hc with h0
  · exact absurd hc (by decide)
  · exact h0 hc

theorem colon_notMem_snprintf {s : CStr} (h : (0x3A : UInt8) ∉ s.val) (n : ℕ) :
    (0x3A : UInt8) ∉ (CStr.snprintf n s).val :=
  fun hmem => h (List.mem_of_mem_take hmem)

/-- No path of the wizard has a colon. -/
theorem colon_notMem_setupPaths {uniq : CStr} (hlen : uniq.val.length = 17) (daemonMode : Bool) :
    (0x3A : UInt8) ∉ (setupPaths uniq daemonMode).calibPath.val ∧
      (0x3A : UInt8) ∉ (setupPaths uniq daemonMode).tomlPath.val := by
  have hmac : (0x3A : UInt8) ∉ ((sanitizeMac uniq 18).getD .empty).val := by
    cases h : sanitizeMac uniq 18 with
    | none => simp [CStr.empty]
    | some mac => exact colon_notMem_sanitizeMac h
  have hlits : (0x3A : UInt8) ∉ stateDir.val ∧ (0x3A : UInt8) ∉ devicesDDir.val ∧
      (0x3A : UInt8) ∉ (CStr.lit "/").val ∧ (0x3A : UInt8) ∉ (CStr.lit ".toml").val ∧
      (0x3A : UInt8) ∉ (CStr.lit "/calibration.json").val := by decide
  obtain ⟨h1, h2, h3, h4, h5⟩ := hlits
  rw [setupPaths, if_pos hlen]
  refine ⟨colon_notMem_snprintf ?_ _, colon_notMem_snprintf ?_ _⟩
  · have hdir := colon_notMem_snprintf (s := stateDir ++ .lit "/" ++
      (sanitizeMac uniq 18).getD .empty) (by simp [h1, h3, hmac]) 64
    simp [hdir, h5]
  · simp [h2, h3, h4, hmac]

/-- The daemon's paths keep the bytes of the identity. -/
theorem mem_devicePath {dc : DaemonConfig} {m path : CStr} (h : devicePath dc m = some path)
    {x : UInt8} (hx : x ∈ m.val) : x ∈ path.val := by
  simp only [devicePath, Option.bind_eq_bind, Option.bind_eq_some_iff] at h
  obtain ⟨root, -, dir, hdir, hpath⟩ := h
  exact mem_of_pathJoin hpath (.inl (mem_of_pathJoin hdir (.inr hx)))

theorem mem_calibPath {dc : DaemonConfig} {d : DeviceConfig Double} {m : CStr} {n : ℕ}
    (hd : d.calib = none) (hne : daemonConfigCalibPath dc d m n ≠ .empty) {x : UInt8}
    (hx : x ∈ m.val) : x ∈ (daemonConfigCalibPath dc d m n).val := by
  simp only [daemonConfigCalibPath, hd, Option.bind_eq_bind] at hne ⊢
  cases h : (pathJoin n dc.stateDir (.lit "/")).bind fun path =>
      (pathJoin n path m).bind fun path => pathJoin n path (.lit "/calibration.json") with
  | none => rw [h] at hne; exact absurd rfl hne
  | some path =>
    simp only [Option.bind_eq_some_iff] at h
    obtain ⟨root, -, dir, hdir, hpath⟩ := h
    exact mem_of_pathJoin hpath (.inl (mem_of_pathJoin hdir (.inr hx)))

theorem isMac_of_valid {m : CStr} (h : daemonIdentityValid m = true) (hne : m ≠ unknownIdentity) :
    isMac m = true := by
  simpa [daemonIdentityValid, hne] using h

/-- For no MAC does the daemon read a file that the wizard wrote: the device files differ whatever
the directories are, and so do the calibration files unless the device file names one. -/
theorem setupPaths_ne_daemon (dc : DaemonConfig) {m : CStr} (daemonMode : Bool)
    (hvalid : daemonIdentityValid m = true) (hmac : m ≠ unknownIdentity) :
    devicePath dc m ≠ some (setupPaths m daemonMode).tomlPath ∧
      ∀ (d : DeviceConfig Double) (outsz : ℕ), d.calib = none →
        daemonConfigCalibPath dc d m outsz ≠ (setupPaths m daemonMode).calibPath := by
  have hm := isMac_of_valid hvalid hmac
  have hlen := (isMac_iff.mp hm).1
  have hcolon := colon_mem_of_isMac hm
  obtain ⟨hcalib, htoml⟩ := colon_notMem_setupPaths hlen daemonMode
  refine ⟨fun h => htoml (mem_devicePath h hcolon), fun d outsz hd h => ?_⟩
  by_cases hne : daemonConfigCalibPath dc d m outsz = .empty
  · -- a path that does not fit is empty, the wizard's is not
    have hslash : (setupPaths m daemonMode).calibPath.val ≠ [] := by
      rw [setupPaths, if_pos hlen]
      simp [CStr.snprintf, statePathMax, stateDir, CStr.lit, ascii]
    rw [← h, hne] at hslash
    exact hslash rfl
  · exact hcalib (h ▸ mem_calibPath hd hne hcolon)

theorem setupPaths_ne_daemon_sample :
    devicePath defaultDirs (.lit "aa:bb:cc:dd:ee:ff") ≠
        some (setupPaths (.lit "aa:bb:cc:dd:ee:ff") true).tomlPath ∧
      daemonConfigCalibPath defaultDirs deviceConfigInit (.lit "aa:bb:cc:dd:ee:ff") pathSize ≠
        (setupPaths (.lit "aa:bb:cc:dd:ee:ff") true).calibPath :=
  have h := setupPaths_ne_daemon defaultDirs (m := .lit "aa:bb:cc:dd:ee:ff") true (by decide)
    (by decide)
  ⟨h.1, h.2 deviceConfigInit pathSize rfl⟩

/-- With the default directories the wizard and the daemon name different files. -/
theorem setupPaths_default :
    setupPaths (.lit "AA:BB:CC:DD:EE:FF") true =
        ⟨.lit "/var/lib/lgmagic/AA_BB_CC_DD_EE_FF/calibration.json",
          .lit "/etc/lgmagic/devices.d/AA_BB_CC_DD_EE_FF.toml"⟩ ∧
      ¬(devicePath defaultDirs (.lit "AA:BB:CC:DD:EE:FF") =
          some (setupPaths (.lit "AA:BB:CC:DD:EE:FF") true).tomlPath ∧
        daemonConfigCalibPath defaultDirs deviceConfigInit (.lit "AA:BB:CC:DD:EE:FF") pathSize =
          (setupPaths (.lit "AA:BB:CC:DD:EE:FF") true).calibPath) := by
  decide

end Setup
