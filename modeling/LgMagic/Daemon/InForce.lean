import LgMagic.Daemon.Bus
import LgMagic.Profiles.Codec

/-!
# Settings in force

What a configuration of a remote is worth for its pipeline. `pipeline_configure` reads the
calibration between the profile and the engine of the airmouse, and where the calibration cannot be
read it returns before the engine is set. The profile goes through `profile_merge`, which takes over
the value of `lpf_alpha` without the flag that says it is set, so that the engine always runs with
the coefficient of the global configuration.

* `Applied`, `applied_iff`: when the engine has the parameters of the configuration;
* `resolveProfile_eq`: the profile that the pipeline goes by, field by field;
* `InForce`, `inForce_iff`: when the settings of the active profile are in force and reported.
-/

namespace Daemon

open Binary64 CString Pointer Printf Profiles

/-! ## Configuring with a calibration that cannot be read -/

section

variable {F : Type} [CNum F]

/-- The airmouse of a pipeline is set as the configuration says. -/
structure Applied (p : Pipeline F) (dc : DeviceConfig F) (gcfg : GlobalConfig F) : Prop where
  airmouseOn : p.airmouseOn = dc.airmouse
  scale : p.am.scale = (resolveProfile dc).sensitivity
  alpha : p.am.alpha =
    if (resolveProfile dc).hasLpf then (resolveProfile dc).lpfAlpha else gcfg.lpfAlpha
  gateOn : p.am.gateOn = gcfg.accelGate
  gateLo : p.am.gateLo = gcfg.accelGateLo
  gateHi : p.am.gateHi = gcfg.accelGateHi

/-- The previous calibration stays. -/
def CalibrationKept (p p' : Pipeline F) : Prop := p'.cal = p.cal ∧ p'.haveCal = p.haveCal

variable {calibLoad : CStr → Except Bytes (Calib F)} {p p' : Pipeline F} {dc : DeviceConfig F}
  {calibPath : CStr} {gcfg : GlobalConfig F} {kbdUinput : ℤ} {writes : List InputEvent}

/-- The end of `pipeline_configure` sets the airmouse. -/
theorem applied_rearmAirmouse (h : p.active = resolveProfile dc) :
    Applied (rearmAirmouse p dc gcfg) dc gcfg := by
  refine ⟨rfl, ?_, ?_, rfl, rfl, rfl⟩
  · exact congrArg Profile.sensitivity h
  · simp only [rearmAirmouse, airmouseGateCfg, airmouseInit, h]

/-- What `pipeline_configure` does: the end is reached, or the calibration cannot be read, and then
the calibration and the airmouse are as before. -/
theorem pipelineConfigure_cases (calibLoad : CStr → Except Bytes (Calib F)) (p : Pipeline F)
    (dc : DeviceConfig F) (calibPath : CStr) (gcfg : GlobalConfig F) (kbdUinput : ℤ) :
    (∃ p₁ writes, p₁.active = resolveProfile dc ∧
      (calibPath = .empty ∨ ∃ cal, calibLoad calibPath = .ok cal) ∧
      pipelineConfigure calibLoad p dc calibPath gcfg kbdUinput =
        (.ok (), rearmAirmouse p₁ dc gcfg, writes)) ∨
    (∃ e p₁ writes, calibPath ≠ .empty ∧ calibLoad calibPath = .error e ∧ p₁.am = p.am ∧
      p₁.airmouseOn = p.airmouseOn ∧ CalibrationKept p p₁ ∧
      pipelineConfigure calibLoad p dc calibPath gcfg kbdUinput = (.error e, p₁, writes)) := by
  let held := if 0 ≤ kbdUinput then [] else p.held
  let writes := if 0 ≤ kbdUinput then p.held.reverse.flatMap fun h => uinputKey h.virt 0 else []
  let resolved : Pipeline F := { p with held := held, active := resolveProfile dc }
  by_cases hempty : calibPath = .empty
  · refine .inl ⟨{ resolved with haveCal := false }, writes, rfl, .inl hempty, ?_⟩
    rw [pipelineConfigure, if_pos hempty]
  · cases hload : calibLoad calibPath with
    | ok cal =>
      refine .inl ⟨{ resolved with cal := cal, haveCal := true }, writes, rfl, .inr ⟨cal, rfl⟩, ?_⟩
      rw [pipelineConfigure, if_neg hempty, hload]
    | error e =>
      refine .inr ⟨e, resolved, writes, hempty, rfl, rfl, rfl, ⟨rfl, rfl⟩, ?_⟩
      rw [pipelineConfigure, if_neg hempty, hload]

/-- The airmouse is set as the configuration says where no calibration is asked for, where the
calibration can be read, and where the airmouse was set so before; a calibration that cannot be read
leaves the previous one in place. -/
theorem applied_iff (calibLoad : CStr → Except Bytes (Calib F)) (p : Pipeline F)
    (dc : DeviceConfig F) (calibPath : CStr) (gcfg : GlobalConfig F) (kbdUinput : ℤ) :
    let p' := (pipelineConfigure calibLoad p dc calibPath gcfg kbdUinput).2.1
    (Applied p' dc gcfg ∧
      (calibPath ≠ .empty → (∃ e, calibLoad calibPath = .error e) → CalibrationKept p p')) ↔
    calibPath = .empty ∨ (∃ cal, calibLoad calibPath = .ok cal) ∨ Applied p dc gcfg := by
  rcases pipelineConfigure_cases calibLoad p dc calibPath gcfg kbdUinput with
    ⟨p₁, writes, hactive, hread, heq⟩ | ⟨e, p₁, writes, hne, herror, ham, hon, hkept, heq⟩
  · simp only [heq]
    refine iff_of_true ⟨applied_rearmAirmouse hactive, fun hne ⟨e, herror⟩ => ?_⟩
      (hread.imp_right .inl)
    -- the calibration was read
    obtain ⟨cal, hok⟩ := hread.resolve_left hne
    rw [hok] at herror
    cases herror
  · simp only [heq]
    have happlied : Applied p₁ dc gcfg ↔ Applied p dc gcfg := by
      constructor
      · rintro ⟨h₁, h₂, h₃, h₄, h₅, h₆⟩
        rw [ham] at h₂ h₃ h₄ h₅ h₆
        exact ⟨hon ▸ h₁, h₂, h₃, h₄, h₅, h₆⟩
      · rintro ⟨h₁, h₂, h₃, h₄, h₅, h₆⟩
        rw [← ham] at h₂ h₃ h₄ h₅ h₆
        exact ⟨hon.trans h₁, h₂, h₃, h₄, h₅, h₆⟩
    rw [happlied]
    refine ⟨fun h => .inr (.inr h.1), fun h => ?_⟩
    rcases h with hempty | ⟨cal, hok⟩ | h
    · exact absurd hempty hne
    · rw [hok] at herror
      cases herror
    · exact ⟨h, fun _ _ => hkept⟩

end

/-- A global configuration. -/
def sampleGlobal : GlobalConfig Double :=
  ⟨CNum.ofRat (1 / 5), true, CNum.ofRat 60, CNum.ofRat 400⟩

/-- A remote whose calibration file is missing starts without its airmouse. -/
theorem not_applied_missingCalibration : ¬ Applied
    (pipelineConfigure (fun _ => .error (ascii "No such file or directory")) pipelineInit
      deviceConfigInit (.lit "/var/lib/lgmagic/unknown/calibration.json") sampleGlobal 3).2.1
    deviceConfigInit sampleGlobal := by
  intro h
  exact absurd h.airmouseOn (by decide)

/-! ## The active profile -/

/-- The profile that a configuration makes active: the named one if it is defined, else the one that
is called `default`. -/
def activeProfile {F : Type} (dc : DeviceConfig F) : Option (Profile F) :=
  (profileFind dc dc.profile).or (profileFind dc (.lit "default"))

/-- A setting of the active profile, with the value to fall back on. -/
def setting {F : Type} (S : Option (Profile F)) (has : Profile F → Bool) (value : Profile F → F)
    (fallback : F) : F :=
  match S with
  | some s => if has s then value s else fallback
  | none => fallback

/-- The button map of the active profile. -/
def activeMap {F : Type} (S : Option (Profile F)) : List (ℤ × ℤ) := (S.map (·.map)).getD []

/-- The buttons of a map are entered one after the other. -/
def enterButtons (map : List (ℤ × ℤ)) : List (ℤ × ℤ) :=
  map.foldl (fun acc m => Assoc.put acc m.1 m.2) []

theorem nodup_enterButtons (map : List (ℤ × ℤ)) : ((enterButtons map).map Prod.fst).Nodup := by
  have hfold : ∀ (map acc : List (ℤ × ℤ)), (acc.map Prod.fst).Nodup →
      ((map.foldl (fun acc m => Assoc.put acc m.1 m.2) acc).map Prod.fst).Nodup := by
    intro map
    induction map with
    | nil => exact fun acc h => h
    | cons m map ih => exact fun acc h => ih _ (Assoc.nodup_put h)
  exact hfold map [] List.nodup_nil

/-- A map is entered as it is where no button comes twice. -/
theorem enterButtons_eq_iff {map : List (ℤ × ℤ)} :
    enterButtons map = map ↔ (map.map Prod.fst).Nodup := by
  refine ⟨fun h => h ▸ nodup_enterButtons map, fun h => ?_⟩
  have hfold : ∀ (map acc : List (ℤ × ℤ)), ((acc ++ map).map Prod.fst).Nodup →
      map.foldl (fun acc m => Assoc.put acc m.1 m.2) acc = acc ++ map := by
    intro map
    induction map with
    | nil => exact fun acc _ => (List.append_nil acc).symm
    | cons m map ih =>
      intro acc hnodup
      have hnew : Assoc.get acc m.1 = none := by
        rw [Assoc.get_eq_none_iff]
        intro hmem
        rw [List.map_append] at hnodup
        exact List.disjoint_of_nodup_append hnodup hmem (by simp)
      have hput : Assoc.put acc m.1 m.2 = acc ++ [m] := by
        rw [Assoc.put, hnew]
        rfl
      rw [List.foldl_cons, hput, ih _ (by simpa using hnodup), List.append_assoc]
      rfl
  exact hfold map [] h

section

variable {F : Type} [CNum F] {p p' : Pipeline F} {dc : DeviceConfig F} {gcfg : GlobalConfig F}

/-- `profile_merge` onto the built-ins takes over the values that are set and none of the flags. -/
theorem profileMerge_profileInit (name : CStr) (s : Profile F) :
    profileMerge (profileInit name) s =
      { name := name
        scrollSpeed := if s.hasScroll then s.scrollSpeed else CNum.ofRat 1
        sensitivity := if s.hasSens then s.sensitivity else CNum.ofRat 30
        lpfAlpha := if s.hasLpf then s.lpfAlpha else CNum.ofRat (-1)
        hasScroll := false
        hasSens := false
        hasLpf := false
        map := enterButtons s.map } := by
  have hfold : ∀ (map : List (ℤ × ℤ)) (p : Profile F),
      map.foldl (fun dst m => profileSetButton dst m.1 m.2) p =
        { p with map := map.foldl (fun acc m => Assoc.put acc m.1 m.2) p.map } := by
    intro map
    induction map with
    | nil => exact fun p => rfl
    | cons m map ih => exact fun p => ih _
  simp only [profileMerge, hfold]
  cases s.hasScroll <;> cases s.hasSens <;> cases s.hasLpf <;> rfl

/-- The profile that the pipeline goes by. -/
theorem resolveProfile_eq (dc : DeviceConfig F) : resolveProfile dc =
    { name := .lit "resolved"
      scrollSpeed := setting (activeProfile dc) (·.hasScroll) (·.scrollSpeed) (CNum.ofRat 1)
      sensitivity := setting (activeProfile dc) (·.hasSens) (·.sensitivity) (CNum.ofRat 30)
      lpfAlpha := setting (activeProfile dc) (·.hasLpf) (·.lpfAlpha) (CNum.ofRat (-1))
      hasScroll := false
      hasSens := false
      hasLpf := false
      map := enterButtons (activeMap (activeProfile dc)) } := by
  rw [resolveProfile, activeProfile]
  cases (profileFind dc dc.profile).or (profileFind dc (.lit "default")) with
  | none => rfl
  | some s => exact profileMerge_profileInit _ s

/-- What a pipeline works with after it was configured with success. -/
theorem active_of_configured {calibLoad : CStr → Except Bytes (Calib F)} {calibPath : CStr}
    {kbdUinput : ℤ} {writes : List InputEvent}
    (h : pipelineConfigure calibLoad p dc calibPath gcfg kbdUinput = (.ok (), p', writes)) :
    p'.active = resolveProfile dc ∧ Applied p' dc gcfg := by
  rcases pipelineConfigure_cases calibLoad p dc calibPath gcfg kbdUinput with
    ⟨p₁, writes', hactive, -, heq⟩ | ⟨e, p₁, writes', -, -, -, -, -, heq⟩
  · rw [h] at heq
    cases heq
    exact ⟨hactive, applied_rearmAirmouse hactive⟩
  · rw [h] at heq
    cases heq

end

/-! ## What is reported -/

/-- The settings in force are those of the active profile, with the documented values to fall back
on. -/
structure InForce (p : Pipeline Double) (S : Option (Profile Double)) (gcfg : GlobalConfig Double) :
    Prop where
  scrollSpeed : p.active.scrollSpeed = setting S (·.hasScroll) (·.scrollSpeed) (CNum.ofRat 1)
  sensitivity : p.am.scale = setting S (·.hasSens) (·.sensitivity) (CNum.ofRat 30)
  lpfAlpha : p.am.alpha = setting S (·.hasLpf) (·.lpfAlpha) gcfg.lpfAlpha
  map : p.active.map = activeMap S

/-- The end of the status with the given numbers. -/
def statusNumbers (scrollSpeed sensitivity lpfAlpha : Double) (buttons : ℕ) : Bytes :=
  statusLine "scroll_speed" (fmtG 6 scrollSpeed) ++
    statusLine "sensitivity" (fmtG 6 sensitivity) ++
    statusLine "lpf_alpha" (fmtG 6 lpfAlpha) ++
    statusLine "buttons" (printInt buttons)

/-- The status of a remote with this pipeline ends with the numbers that the wheel and the airmouse
use. -/
def ReportsUsed (p : Pipeline Double) (gcfg : GlobalConfig Double) : Prop :=
  ∀ (dd : DaemonDevices) (r : DaemonRemote), r.pl = p → dd.global = gcfg →
    statusNumbers p.active.scrollSpeed p.am.scale p.am.alpha p.active.map.length <:+ statusText dd r

variable {calibLoad : CStr → Except Bytes (Calib Double)} {p p' : Pipeline Double}
  {dc : DeviceConfig Double} {calibPath : CStr} {gcfg : GlobalConfig Double} {kbdUinput : ℤ}
  {writes : List InputEvent}

/-- The bus resolves the coefficient of the filter as the pipeline does. -/
theorem reportsUsed_of_applied (hactive : p.active = resolveProfile dc) (h : Applied p dc gcfg) :
    ReportsUsed p gcfg := by
  rintro dd r rfl rfl
  have hscale : r.pl.am.scale = r.pl.active.sensitivity := by rw [h.scale, hactive]
  have halpha : r.pl.am.alpha =
      if r.pl.active.hasLpf then r.pl.active.lpfAlpha else dd.global.lpfAlpha := by
    rw [h.alpha, hactive]
  rw [statusNumbers, statusText, hscale, halpha]
  simp only [List.append_assoc]
  iterate 7 refine List.suffix_append_of_suffix ?_
  exact List.suffix_rfl

/-- The settings of the active profile are in force and reported where it does not set `lpf_alpha`,
or sets it to the global value. -/
theorem inForce_iff
    (h : pipelineConfigure calibLoad p dc calibPath gcfg kbdUinput = (.ok (), p', writes)) :
    InForce p' (activeProfile dc) gcfg ∧ ReportsUsed p' gcfg ↔
      ∀ s, activeProfile dc = some s →
        (s.hasLpf = true → s.lpfAlpha = gcfg.lpfAlpha) ∧ (s.map.map Prod.fst).Nodup := by
  obtain ⟨hactive, happlied⟩ := active_of_configured h
  have hresolve := resolveProfile_eq dc
  -- the coefficient in force is the global one, whatever the profile says
  have halpha : p'.am.alpha = gcfg.lpfAlpha := by
    rw [happlied.alpha, hresolve]
    rfl
  constructor
  · rintro ⟨hinforce, -⟩ s hs
    have hlpf := hinforce.lpfAlpha
    have hmap := hinforce.map
    rw [halpha, hs, setting] at hlpf
    rw [hactive, hresolve, hs] at hmap
    refine ⟨fun hset => ?_, enterButtons_eq_iff.mp hmap⟩
    rw [if_pos hset] at hlpf
    exact hlpf.symm
  · intro hcond
    refine ⟨⟨?_, ?_, ?_, ?_⟩, reportsUsed_of_applied hactive happlied⟩
    · rw [hactive, hresolve]
    · rw [happlied.scale, hresolve]
    · rw [halpha]
      cases hS : activeProfile dc with
      | none => rfl
      | some s =>
        rw [setting]
        split_ifs with hset
        · exact ((hcond s hS).1 hset).symm
        · rfl
    · rw [hactive, hresolve]
      cases hS : activeProfile dc with
      | none => rfl
      | some s => exact enterButtons_eq_iff.mpr (hcond s hS).2

/-- A configuration whose profile sets the speed of the wheel and a button. -/
def wheelConfig : DeviceConfig Double :=
  { (deviceConfigInit : DeviceConfig Double) with
    profiles := [{ profileInit (.lit "default") with
      scrollSpeed := CNum.ofRat 2
      hasScroll := true
      map := [(28, 272)] }] }

/-- A fresh pipeline without a calibration. -/
def configured (dc : DeviceConfig Double) : Pipeline Double :=
  (pipelineConfigure (fun _ => .error []) pipelineInit dc .empty sampleGlobal 3).2.1

theorem inForce_wheelConfig :
    InForce (configured wheelConfig) (activeProfile wheelConfig) sampleGlobal ∧
      ReportsUsed (configured wheelConfig) sampleGlobal := by
  have h : pipelineConfigure (fun _ => .error []) pipelineInit wheelConfig .empty sampleGlobal 3 =
      (.ok (), configured wheelConfig, []) := rfl
  refine (inForce_iff h).mpr fun s hs => ?_
  have hactive : activeProfile wheelConfig = wheelConfig.profiles.head? := rfl
  obtain rfl := Option.some.inj (hactive.symm.trans hs)
  exact ⟨fun hset => (by cases hset), by decide⟩

/-- A configuration whose profile sets the coefficient of the filter. -/
def filterConfig : DeviceConfig Double :=
  { (deviceConfigInit : DeviceConfig Double) with
    profiles := [{ profileInit (.lit "default") with
      lpfAlpha := CNum.ofRat (1 / 2)
      hasLpf := true }] }

/-- The filter runs with the global coefficient although the profile sets its own. -/
theorem not_inForce_filterConfig :
    ¬ InForce (configured filterConfig) (activeProfile filterConfig) sampleGlobal := by
  intro h
  exact absurd h.lpfAlpha (by decide +kernel)

end Daemon
