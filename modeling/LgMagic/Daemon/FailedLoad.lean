import LgMagic.Daemon.Config

/-!
# Failed loads

What `daemon_config_load_remote` hands back when it fails. The document is read member by member
into the configuration, and a member that is refused ends the reading where it stands: what the
members before it set stays.

* `MemberEffect`, `firstEffect`: what the members of a document do, in the order of the reading;
* `deviceConfigFromToml_eq_init_iff`: when the built-in configuration is left;
* `failedLoad_default_iff`: when a failed load hands back the built-in configuration.
-/

namespace Daemon

open CString Toml Binary64 Profiles

/-! ## The members of a document -/

/-- What a member of the document does to the built-in configuration: it is not there or says what
is built in, it sets something else, or it is refused. -/
inductive MemberEffect where
  | keeps
  | sets
  | fails
  deriving DecidableEq

/-- A member that is a string, with the string that is built in. -/
def strEffect (read : Except Bytes (Option CStr)) (builtin : CStr) : MemberEffect :=
  match read with
  | .error _ => .fails
  | .ok s => if s.getD builtin = builtin then .keeps else .sets

/-- The member `profile`. -/
def profileEffect (t : Members) : MemberEffect :=
  strEffect (strField t (.lit "profile")) (.lit "default")

/-- The member `calib`; the empty path stands for the default. -/
def calibEffect (t : Members) : MemberEffect := strEffect (strField t (.lit "calib")) .empty

/-- The member `airmouse`, which is marked as set whatever its value is. -/
def airmouseEffect (t : Members) : MemberEffect :=
  match tableGetShort t (.lit "airmouse") with
  | none => .keeps
  | some (.bool _) => .sets
  | some _ => .fails

/-- The first of the members of `profiles`. -/
def firstProfileEffect : Members → MemberEffect
  | [] => .keeps
  | (name, .table t) :: _ =>
    match parseProfile name t with
    | .ok _ => .sets
    | .error _ => .fails
  | _ :: _ => .fails

/-- The member `profiles`. -/
def profilesEffect (t : Members) : MemberEffect :=
  match tableGetShort t (.lit "profiles") with
  | none => .keeps
  | some (.table profiles) => firstProfileEffect profiles
  | some _ => .fails

/-- The first member of a document that does not keep the built-in configuration as it is. -/
def firstEffect (t : Members) : Option MemberEffect :=
  [profileEffect t, calibEffect t, airmouseEffect t, profilesEffect t].find? (· ≠ .keeps)

/-! ## Reading -/

/-- The second half of `device_config_from_toml`: the profiles and the last check. -/
def parseRest (t : Members) (dc : DeviceConfig Double) : Except Bytes Unit × DeviceConfig Double :=
  match tableGetShort t (.lit "profiles") with
  | none => (deviceConfigValidate dc, dc)
  | some (.table profiles) =>
    match parseProfiles dc profiles with
    | (.error e, dc) => (.error e, dc)
    | (.ok (), dc) => (deviceConfigValidate dc, dc)
  | some _ => (.error (typeError (.lit "profiles") "a table"), dc)

variable {t : Members} {dc : DeviceConfig Double}

theorem deviceConfigFromToml_of_error {e : Bytes}
    (h : parseScalars t deviceConfigInit = (.error e, dc)) :
    deviceConfigFromToml (.table t) deviceConfigInit = (.error e, dc) := by
  change parseScalars t { (deviceConfigInit : DeviceConfig Double) with profiles := [] } = _ at h
  rw [deviceConfigFromToml, h]

theorem deviceConfigFromToml_of_ok (h : parseScalars t deviceConfigInit = (.ok (), dc)) :
    deviceConfigFromToml (.table t) deviceConfigInit = parseRest t dc := by
  change parseScalars t { (deviceConfigInit : DeviceConfig Double) with profiles := [] } = _ at h
  rw [deviceConfigFromToml, h]
  rfl

/-- Profiles that were read stay, and the other fields are as they were. -/
theorem parseProfiles_extends (dc : DeviceConfig Double) (ms : Members) :
    ∃ ps, (parseProfiles dc ms).2 = { dc with profiles := dc.profiles ++ ps } := by
  have hnone : dc = { dc with profiles := dc.profiles ++ [] } := by rw [List.append_nil]
  induction ms generalizing dc with
  | nil => exact ⟨[], hnone⟩
  | cons m ms ih =>
    obtain ⟨name, v⟩ := m
    cases v with
    | table t =>
      rw [parseProfiles]
      split_ifs with hdup
      · exact ⟨[], hnone⟩
      · cases parseProfile name t with
        | error e => exact ⟨[], hnone⟩
        | ok p =>
          obtain ⟨ps, hps⟩ := ih { dc with profiles := dc.profiles ++ [p] } (by simp)
          exact ⟨p :: ps, by rw [hps, List.append_assoc]; rfl⟩
    | str s | int i | float d | bool b | arr items => exact ⟨[], hnone⟩

/-- What is left of the profiles goes by the first of them. -/
theorem parseProfiles_eq_iff (hdc : dc.profiles = []) (ms : Members) :
    (parseProfiles dc ms).2 = dc ↔ firstProfileEffect ms ≠ .sets := by
  cases ms with
  | nil => exact iff_of_true rfl (by simp [firstProfileEffect])
  | cons m ms =>
    obtain ⟨name, v⟩ := m
    cases v with
    | table t =>
      rw [parseProfiles, if_neg (by simp [profileFind, hdc]), firstProfileEffect]
      cases parseProfile name t with
      | error e => exact iff_of_true rfl (by simp)
      | ok p =>
        obtain ⟨ps, hps⟩ := parseProfiles_extends { dc with profiles := dc.profiles ++ [p] } ms
        refine iff_of_false (fun h => ?_) (by simp)
        have hprofiles := congrArg DeviceConfig.profiles (hps.symm.trans h)
        simp [hdc] at hprofiles
    | str s | int i | float d | bool b | arr items =>
      exact iff_of_true rfl (by simp [firstProfileEffect])

/-- The second half only adds profiles. -/
theorem parseRest_extends (t : Members) (dc : DeviceConfig Double) :
    ∃ ps, (parseRest t dc).2 = { dc with profiles := dc.profiles ++ ps } := by
  have hnone : dc = { dc with profiles := dc.profiles ++ [] } := by rw [List.append_nil]
  rw [parseRest]
  cases tableGetShort t (.lit "profiles") with
  | none => exact ⟨[], hnone⟩
  | some v =>
    cases v with
    | table profiles =>
      obtain ⟨ps, hps⟩ := parseProfiles_extends dc profiles
      refine ⟨ps, ?_⟩
      rw [← hps]
      dsimp only
      rcases parseProfiles dc profiles with ⟨_ | _, _⟩ <;> rfl
    | str s | int i | float d | bool b | arr items => exact ⟨[], hnone⟩

theorem parseRest_eq_iff (hdc : dc.profiles = []) :
    (parseRest t dc).2 = dc ↔ profilesEffect t ≠ .sets := by
  rw [parseRest, profilesEffect]
  cases tableGetShort t (.lit "profiles") with
  | none => exact iff_of_true rfl (by simp)
  | some v =>
    cases v with
    | table profiles =>
      rw [← parseProfiles_eq_iff hdc profiles]
      dsimp only
      rcases parseProfiles dc profiles with ⟨_ | _, _⟩ <;> rfl
    | str s | int i | float d | bool b | arr items => exact iff_of_true rfl (by simp)

/-- The last scalar of the document. -/
def parseAirmouse (t : Members) (dc : DeviceConfig Double) :
    Except Bytes Unit × DeviceConfig Double :=
  match tableGetShort t (.lit "airmouse") with
  | none => (.ok (), dc)
  | some (.bool b) => (.ok (), { dc with airmouse := b, hasAirmouse := true })
  | some _ => (.error (typeError (.lit "airmouse") "a boolean"), dc)

theorem parseAirmouse_cases (t : Members) :
    (airmouseEffect t = .keeps ∧ ∀ dc, parseAirmouse t dc = (.ok (), dc)) ∨
    (airmouseEffect t = .fails ∧ ∃ e, ∀ dc, parseAirmouse t dc = (.error e, dc)) ∨
    (airmouseEffect t = .sets ∧ ∃ b, ∀ dc, parseAirmouse t dc =
      (.ok (), { dc with airmouse := b, hasAirmouse := true })) := by
  unfold parseAirmouse airmouseEffect
  cases tableGetShort t (.lit "airmouse") with
  | none => exact .inl ⟨rfl, fun _ => rfl⟩
  | some v =>
    cases v with
    | bool b => exact .inr (.inr ⟨rfl, b, fun _ => rfl⟩)
    | str s | int i | float d | arr items | table sub => exact .inr (.inl ⟨rfl, _, fun _ => rfl⟩)

/-- The scalars that differ from the built-in ones. -/
def ScalarsSet (dc : DeviceConfig Double) : Prop :=
  dc.profile ≠ .lit "default" ∨ dc.calib ≠ none ∨ dc.hasAirmouse = true

/-- The last scalar takes nothing back. -/
theorem ScalarsSet.airmouse {dc : DeviceConfig Double} (h : ScalarsSet dc) (t : Members) :
    ScalarsSet (parseAirmouse t dc).2 := by
  rcases parseAirmouse_cases t with ⟨-, hrun⟩ | ⟨-, e, hrun⟩ | ⟨-, b, hrun⟩
  · rwa [hrun]
  · rwa [hrun]
  · rw [hrun]
    exact .inr (.inr rfl)

/-- The first scalar that does not keep the built-in configuration as it is. -/
def firstScalarEffect (t : Members) : Option MemberEffect :=
  [profileEffect t, calibEffect t, airmouseEffect t].find? (· ≠ .keeps)

/-- The scalars of a document set something, or one is refused before that, or all keep the built-in
configuration as it is. -/
theorem parseScalars_init (t : Members) :
    (firstScalarEffect t = some .sets ∧ ScalarsSet (parseScalars t deviceConfigInit).2) ∨
    (firstScalarEffect t = some .fails ∧
      ∃ e, parseScalars t deviceConfigInit = (.error e, deviceConfigInit)) ∨
    (firstScalarEffect t = none ∧
      parseScalars t deviceConfigInit = (.ok (), deviceConfigInit)) := by
  have hscalars : parseScalars t deviceConfigInit =
      match strField t (.lit "profile") with
      | .error e => (.error e, deviceConfigInit)
      | .ok profile =>
        match strField t (.lit "calib") with
        | .error e => (.error e, { deviceConfigInit with profile := profile.getD (.lit "default") })
        | .ok calib =>
          parseAirmouse t { (deviceConfigInit : DeviceConfig Double) with
            profile := profile.getD (.lit "default")
            calib := if calib.or none = some .empty then none else calib.or none } := rfl
  -- a scalar that fails stops the decoding; one that differs from the default sets something
  rw [hscalars, firstScalarEffect, profileEffect, calibEffect]
  rcases strField t (.lit "profile") with e | profile
  · exact .inr (.inl ⟨rfl, e, rfl⟩)
  by_cases hprofile : profile.getD (.lit "default") = .lit "default"
  · -- the first scalar keeps the configuration
    rw [strEffect, if_pos hprofile]
    simp only [hprofile]
    rcases strField t (.lit "calib") with e | calib
    · exact .inr (.inl ⟨rfl, e, rfl⟩)
    by_cases hcalib : calib.getD .empty = .empty
    · have hnone : (if calib.or none = some .empty then none else calib.or none) = none := by
        cases calib with
        | none => rfl
        | some s => exact if_pos (congrArg some hcalib)
      rw [strEffect, if_pos hcalib]
      simp only [hnone]
      rcases parseAirmouse_cases t with ⟨heff, hrun⟩ | ⟨heff, e, hrun⟩ | ⟨heff, b, hrun⟩
      · exact .inr (.inr ⟨by rw [heff]; rfl, hrun _⟩)
      · exact .inr (.inl ⟨by rw [heff]; rfl, e, hrun _⟩)
      · exact .inl ⟨by rw [heff]; rfl, by rw [hrun]; exact .inr (.inr rfl)⟩
    · refine .inl ⟨by rw [strEffect, if_neg hcalib]; rfl, ScalarsSet.airmouse (.inr (.inl ?_)) t⟩
      cases calib with
      | none => exact absurd rfl hcalib
      | some s => simpa using hcalib
  · refine .inl ⟨by rw [strEffect, if_neg hprofile]; rfl, ?_⟩
    rcases strField t (.lit "calib") with e | calib
    · exact .inl hprofile
    · exact ScalarsSet.airmouse (.inl hprofile) t

/-- A document leaves the built-in configuration exactly where no member sets anything before the
first one that is refused. -/
theorem deviceConfigFromToml_eq_init_iff (t : Members) :
    (deviceConfigFromToml (.table t) deviceConfigInit).2 = deviceConfigInit ↔
      firstEffect t ≠ some .sets := by
  have hfirst : firstEffect t =
      (firstScalarEffect t).or ([profilesEffect t].find? (· ≠ .keeps)) :=
    @List.find?_append _ _ [profileEffect t, calibEffect t, airmouseEffect t] [profilesEffect t]
  rw [hfirst]
  -- the scalars set something, are refused, or leave it to the profiles
  rcases parseScalars_init t with ⟨heff, hset⟩ | ⟨heff, e, hrun⟩ | ⟨heff, hrun⟩
  · refine iff_of_false ?_ (by simp [heff])
    have hne {dc : DeviceConfig Double} (h : ScalarsSet dc) : dc ≠ deviceConfigInit := by
      rintro rfl
      rcases h with h | h | h
      · exact h rfl
      · exact h rfl
      · cases h
    rcases hrun : parseScalars t deviceConfigInit with ⟨e | _, dc⟩
    · rw [hrun] at hset
      rw [deviceConfigFromToml_of_error hrun]
      exact hne hset
    · obtain ⟨ps, hps⟩ := parseRest_extends t dc
      rw [hrun] at hset
      rw [deviceConfigFromToml_of_ok hrun, hps]
      exact hne hset
  · rw [deviceConfigFromToml_of_error hrun, heff]
    exact iff_of_true rfl (by simp)
  · rw [deviceConfigFromToml_of_ok hrun, heff, Option.none_or, parseRest_eq_iff rfl]
    cases profilesEffect t <;> decide

/-! ## Loading -/

/-- The device file is not there or cannot be read at all, or none of its members sets anything
before the first one that is refused. -/
def NothingSet (dc : DaemonConfig) (fs : CStr → Option Bytes) (identity : CStr) : Prop :=
  ∀ path text t, devicePath dc identity = some path → fs path = some text →
    tomlParse text = .ok t → firstEffect t ≠ some .sets

/-- A load that fails hands back the built-in configuration exactly where the device file sets
nothing before the failure. -/
theorem failedLoad_default_iff {dc : DaemonConfig} {fs : CStr → Option Bytes} {identity : CStr}
    {e : Bytes} (h : (daemonConfigLoadRemote dc fs identity).1 = .error e) :
    (daemonConfigLoadRemote dc fs identity).2 = deviceConfigInit ↔ NothingSet dc fs identity := by
  rw [daemonConfigLoadRemote] at h ⊢
  cases hpath : devicePath dc identity with
  | none => exact iff_of_true rfl fun path text t hpath' => by simp [hpath] at hpath'
  | some path =>
    have hnothing : NothingSet dc fs identity ↔ ∀ text t, fs path = some text →
        tomlParse text = .ok t → firstEffect t ≠ some .sets := by
      simp only [NothingSet, hpath, Option.some.injEq]
      exact ⟨fun h text t => h path text t rfl, fun h _ text t heq => heq ▸ h text t⟩
    -- the device file alone: it is left unread, not parsed, or decoded up to an error
    have hload : (deviceConfigLoadFile path (fs path) deviceConfigInit).2 = deviceConfigInit ↔
        NothingSet dc fs identity := by
      rw [hnothing, deviceConfigLoadFile.eq_def]
      cases hfile : fs path with
      | none => exact iff_of_true rfl fun text t h => by cases h
      | some text =>
        cases hparse : tomlParse text with
        | error e =>
          refine iff_of_true (by simp only [hparse]) fun text' t h h' => ?_
          obtain rfl := Option.some.inj h
          rw [hparse] at h'
          cases h'
        | ok t =>
          have hread := deviceConfigFromToml_eq_init_iff t
          have honly : (∀ text' t', some text = some text' → tomlParse text' = .ok t' →
              firstEffect t' ≠ some .sets) ↔ firstEffect t ≠ some .sets := by
            constructor
            · exact fun h => h text t rfl hparse
            · rintro h text' t' ⟨⟩ hparse'
              obtain rfl := Except.ok.inj (hparse.symm.trans hparse')
              exact h
          rw [honly, ← hread]
          simp only [hparse]
          rcases deviceConfigFromToml (.table t) deviceConfigInit with ⟨_ | _, _⟩ <;> rfl
    rw [hpath] at h
    simp only at h ⊢
    rcases hres : deviceConfigLoadFile path (fs path) deviceConfigInit with ⟨e' | _, out⟩
    · rw [hres] at hload
      exact hload
    · -- only the path of the store can be at fault
      rw [hres] at hload h
      cases hstate : statePath dc with
      | none => exact hload
      | some path => simp [hstate] at h

/-- A file with a profile that it does not define. -/
def undefinedFile (path : CStr) : Option Bytes :=
  if path = .lit "/etc/lgmagic/devices.d/unknown.toml" then some (ascii "profile = \"tv\"\n") else none

/-- A file whose first member is refused. -/
def refusedFile (path : CStr) : Option Bytes :=
  if path = .lit "/etc/lgmagic/devices.d/unknown.toml" then some (ascii "profile = 1\n") else none

theorem failedLoad_refused :
    (daemonConfigLoadRemote defaultDirs refusedFile (.lit "unknown")).2 = deviceConfigInit ↔
      NothingSet defaultDirs refusedFile (.lit "unknown") :=
  failedLoad_default_iff (e := ascii "'profile' must be a string") (by decide +kernel)

/-- The configuration of a file with an undefined profile is refused and handed back with it. -/
theorem failedLoad_undefined :
    (daemonConfigLoadRemote defaultDirs undefinedFile (.lit "unknown")).1 =
        .error (ascii "active profile 'tv' is not defined") ∧
      (daemonConfigLoadRemote defaultDirs undefinedFile (.lit "unknown")).2 ≠ deviceConfigInit := by
  decide +kernel

end Daemon
