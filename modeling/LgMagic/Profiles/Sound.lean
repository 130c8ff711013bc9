import LgMagic.Profiles.Codec
import LgMagic.Toml.ParsedFloats

/-!
# Configurations that the daemon keeps

What reading a document leaves is coherent and its profiles are valid, also where the document is
refused half way: a profile is checked before it is kept. The changes that the daemon makes keep
this, each under a condition on what it is given. Whether the active profile is defined is not part
of it, since the active profile may come from elsewhere.

* `Profile.Sound`, `DeviceConfig.Sound`;
* `sound_deviceConfigLoadFile`: whatever the file, what is left is sound;
* `DeviceConfig.Sound.ensure`, `DeviceConfig.Sound.update`: the changes;
* `DeviceConfig.Sound.validate_iff`: what is missing to a valid configuration.
-/

namespace Profiles

open Binary64 CString Keymap Toml

/-- A profile that was checked. -/
structure Profile.Sound (p : Profile Double) : Prop where
  coherent : p.Coherent
  valid : profileValidate p = .ok ()
  noNan : p.NoNan

/-- A coherent configuration of checked profiles. -/
structure DeviceConfig.Sound (dc : DeviceConfig Double) : Prop where
  coherent : dc.Coherent
  profiles : ∀ p ∈ dc.profiles, p.Sound

/-- No float of a table is not-a-number. -/
abbrev NanFree (t : Members) : Prop := AllFloats (· ≠ .nan) t

variable {p q : Profile Double} {dc dc' : DeviceConfig Double} {t ms : Members} {key name : CStr}
  {x y : Double} {has has' : Bool} {src dst : ℤ}

/-! ## Profiles that are read -/

/-- A computation that goes on after one that succeeded. -/
theorem bind_eq_ok {ε α β : Type} {m : Except ε α} {f : α → Except ε β} {b : β}
    (h : m >>= f = .ok b) : ∃ a, m = .ok a ∧ f a = .ok b := by
  cases m with
  | error e => cases h
  | ok a => exact ⟨a, rfl, h⟩

theorem noNan_profileInit (name : CStr) : (profileInit name : Profile Double).NoNan := by
  have hconst (q : ℚ) : (CNum.ofRat q : Double) ≠ .nan := Double.ofRat_ne_nan _ _
  exact ⟨hconst 1, hconst 30, hconst (-1)⟩

/-- A number that is not set stays, and what is read is a number. -/
theorem numField_eq_ok (ht : NanFree t) (h : numField t key x has = .ok (y, has')) :
    (has' = false → y = x) ∧ (x ≠ .nan → y ≠ .nan) := by
  rw [numField] at h
  cases hget : tableGetShort t key with
  | none =>
    simp only [hget] at h
    cases h
    exact ⟨fun _ => rfl, id⟩
  | some v =>
    simp only [hget] at h
    cases v with
    | float d =>
      cases h
      exact ⟨fun h => (by cases h), fun _ => ht _ (Assoc.mem_of_get hget) _ List.mem_cons_self⟩
    | int i =>
      cases h
      exact ⟨fun h => (by cases h), fun _ => Double.ofRat_ne_nan _ _⟩
    | str s | bool b | arr items | table sub => cases h

/-- Only the button map is changed, and its keycodes stay distinct. -/
theorem parseButtonMap_eq_ok (h : parseButtonMap p ms = .ok q) :
    ∃ map, q = { p with map := map } ∧
      ((p.map.map Prod.fst).Nodup → (map.map Prod.fst).Nodup) := by
  induction ms generalizing p with
  | nil =>
    cases h
    exact ⟨q.map, rfl, id⟩
  | cons m ms ih =>
    obtain ⟨k, v⟩ := m
    cases v with
    | str s =>
      rw [parseButtonMap] at h
      split_ifs at h
      obtain ⟨map, rfl, hnodup⟩ := ih h
      exact ⟨map, rfl, fun hp => hnodup (Assoc.nodup_put hp)⟩
    | int i | float d | bool b | arr items | table sub => cases h

/-- What a profile's table gives. -/
theorem profileParseFields_eq_ok (ht : NanFree t)
    (h : profileParseFields (profileInit name) t = .ok p) :
    p.name = name ∧ p.Coherent ∧ p.NoNan := by
  have hinit := noNan_profileInit name
  rw [profileParseFields] at h
  obtain ⟨⟨scrollSpeed, hasScroll⟩, hscroll, h⟩ := bind_eq_ok h
  obtain ⟨⟨sensitivity, hasSens⟩, hsens, h⟩ := bind_eq_ok h
  obtain ⟨⟨lpfAlpha, hasLpf⟩, hlpf, h⟩ := bind_eq_ok h
  have hscroll := numField_eq_ok ht hscroll
  have hsens := numField_eq_ok ht hsens
  have hlpf := numField_eq_ok ht hlpf
  -- the fields before the button map
  have hfields : ∃ map, p = ⟨name, scrollSpeed, sensitivity, lpfAlpha, hasScroll, hasSens, hasLpf,
      map⟩ ∧ (map.map Prod.fst).Nodup := by
    cases hmap : tableGetShort t (.lit "button_map") with
    | none =>
      simp only [hmap] at h
      cases h
      exact ⟨[], rfl, List.nodup_nil⟩
    | some v =>
      simp only [hmap] at h
      cases v with
      | table bmap =>
        obtain ⟨map, rfl, hnodup⟩ := parseButtonMap_eq_ok h
        exact ⟨map, rfl, hnodup List.nodup_nil⟩
      | str s | int i | float d | bool b | arr items => cases h
  obtain ⟨map, rfl, hnodup⟩ := hfields
  exact ⟨rfl, ⟨hscroll.1, hsens.1, hlpf.1, hnodup⟩,
    hscroll.2 hinit.scrollSpeed, hsens.2 hinit.sensitivity, hlpf.2 hinit.lpfAlpha⟩

theorem parseProfile_eq_ok (ht : NanFree t) (h : parseProfile name t = .ok p) :
    p.name = name ∧ p.Sound := by
  obtain ⟨q, hread, h⟩ := bind_eq_ok h
  obtain ⟨_, hvalid, h⟩ := bind_eq_ok h
  cases h
  obtain ⟨hname, hcoherent, hnan⟩ := profileParseFields_eq_ok ht hread
  exact ⟨hname, hcoherent, hvalid, hnan⟩

/-! ## Configurations that are read -/

/-- Another profile of a new name. -/
theorem DeviceConfig.Sound.concat (h : dc.Sound) (hp : p.Sound)
    (hnew : profileFind dc p.name = none) :
    ({ dc with profiles := dc.profiles ++ [p] } : DeviceConfig Double).Sound := by
  have hps : ∀ q ∈ dc.profiles ++ [p], q.Sound := by
    intro q hq
    rcases List.mem_append.mp hq with hq | hq
    · exact h.profiles q hq
    · exact List.mem_singleton.mp hq ▸ hp
  refine ⟨⟨h.coherent.calib, h.coherent.airmouse, ?_, fun q hq => (hps q hq).coherent⟩, hps⟩
  rw [List.map_append, List.map_singleton, ← List.concat_eq_append]
  exact h.coherent.nodup.concat (profileFind_eq_none.mp hnew)

/-- Each profile is checked before it is kept. -/
theorem sound_parseProfiles (h : dc.Sound) (hms : NanFree ms) : (parseProfiles dc ms).2.Sound := by
  induction ms generalizing dc with
  | nil => exact h
  | cons m ms ih =>
    obtain ⟨name, v⟩ := m
    cases v with
    | table t =>
      have ht : NanFree t := allFloats_iff.mpr (hms _ List.mem_cons_self)
      rw [parseProfiles]
      split_ifs with hnew
      · exact h
      · cases hread : parseProfile name t with
        | error e => exact h
        | ok p =>
          obtain ⟨rfl, hp⟩ := parseProfile_eq_ok ht hread
          rw [Option.not_isSome_iff_eq_none] at hnew
          exact ih (h.concat hp hnew) fun m hm => hms m (List.mem_cons_of_mem _ hm)
    | str s | int i | float d | bool b | arr items => exact h

/-- Other scalar members with the same profiles. -/
theorem DeviceConfig.Sound.scalars (h : dc.Sound) (profile : CStr) {calib : Option CStr}
    {airmouse hasAirmouse : Bool} (hcalib : calib ≠ some .empty)
    (hairmouse : hasAirmouse = false → airmouse = true) :
    (⟨profile, calib, airmouse, hasAirmouse, dc.profiles⟩ : DeviceConfig Double).Sound :=
  ⟨⟨hcalib, hairmouse, h.coherent.nodup, h.coherent.profiles⟩, h.profiles⟩

theorem sound_parseScalars (t : Members) (h : dc.Sound) : (parseScalars t dc).2.Sound := by
  rw [parseScalars]
  cases strField t (.lit "profile") with
  | error e => exact h
  | ok profile =>
    cases strField t (.lit "calib") with
    | error e => exact h.scalars _ h.coherent.calib h.coherent.airmouse
    | ok calib =>
      have hcalib : (if calib.or dc.calib = some .empty then none else calib.or dc.calib) ≠
          some .empty := by
        split_ifs with hempty
        · simp
        · exact hempty
      cases tableGetShort t (.lit "airmouse") with
      | none => exact h.scalars _ hcalib h.coherent.airmouse
      | some v =>
        cases v with
        | bool b => exact h.scalars _ hcalib fun h => by cases h
        | str s | int i | float d | arr items | table sub =>
          exact h.scalars _ hcalib h.coherent.airmouse

theorem sound_init : (deviceConfigInit : DeviceConfig Double).Sound :=
  ⟨⟨by simp [deviceConfigInit], fun _ => rfl, List.nodup_nil, fun _ h => absurd h List.not_mem_nil⟩,
    fun _ h => absurd h List.not_mem_nil⟩

/-- Whatever is wrong with a document, what is left of it is sound. -/
theorem sound_deviceConfigFromToml (ht : NanFree t) (h : dc.Sound) :
    (deviceConfigFromToml (.table t) dc).2.Sound := by
  have hnone : ({ dc with profiles := [] } : DeviceConfig Double).Sound :=
    ⟨⟨h.coherent.calib, h.coherent.airmouse, List.nodup_nil, fun _ h => absurd h List.not_mem_nil⟩,
      fun _ h => absurd h List.not_mem_nil⟩
  have hscalars := sound_parseScalars t hnone
  rw [deviceConfigFromToml]
  generalize parseScalars t { dc with profiles := [] } = r at hscalars
  obtain ⟨_ | _, read⟩ := r
  · exact hscalars
  · cases hget : tableGetShort t (.lit "profiles") with
    | none => exact hscalars
    | some v =>
      cases v with
      | table ms =>
        have hms := sound_parseProfiles hscalars ((kept_allFloats _).sub ht hget)
        dsimp only
        generalize parseProfiles read ms = r at hms
        obtain ⟨_ | _, read'⟩ := r
        · exact hms
        · exact hms
      | str s | int i | float d | bool b | arr items => exact hscalars

/-- Whatever the file, what is left is sound. -/
theorem sound_deviceConfigLoadFile (path : CStr) (file : Option Bytes) (h : dc.Sound) :
    (deviceConfigLoadFile path file dc).2.Sound := by
  cases file with
  | none => exact h
  | some text =>
    rw [deviceConfigLoadFile]
    cases hparse : tomlParse text with
    | error e => exact h
    | ok root =>
      have hroot := sound_deviceConfigFromToml (tomlParse_ne_nan hparse) h
      dsimp only
      generalize deviceConfigFromToml (.table root) dc = r at hroot
      obtain ⟨_ | _, read⟩ := r
      · exact hroot
      · exact hroot

/-! ## Changes -/

theorem mapValidate_of_isSome {map : List (ℤ × ℤ)} (h : ∀ m ∈ map,
    (keymapCodeToName m.1).isSome ∧ (keymapCodeToName m.2).isSome) :
    mapValidate name map = .ok () := by
  induction map with
  | nil => rfl
  | cons m map ih =>
    obtain ⟨hsrc, hdst⟩ := h m List.mem_cons_self
    rw [mapValidate]
    simp only [Option.isNone_eq_false_iff.mpr hsrc, Option.isNone_eq_false_iff.mpr hdst,
      Bool.false_eq_true, if_false]
    exact ih fun m hm => h m (List.mem_cons_of_mem _ hm)

/-- A new profile passes the checks once it has a name. -/
theorem sound_profileInit (hname : name.val ≠ []) : (profileInit name : Profile Double).Sound where
  coherent := ⟨fun _ => rfl, fun _ => rfl, fun _ => rfl, List.nodup_nil⟩
  valid := by
    refine profileValidate_eq_ok.mpr ⟨hname, ?_, ?_, fun h => (by cases h), rfl⟩
    · change scrollSpeedOutOfRange (CNum.ofRat 1) = false
      decide +kernel
    · change sensitivityOutOfRange (CNum.ofRat 30) = false
      decide +kernel
  noNan := noNan_profileInit name

theorem Profile.Sound.setButton (h : p.Sound) (hsrc : (keymapCodeToName src).isSome)
    (hdst : (keymapCodeToName dst).isSome) : (profileSetButton p src dst).Sound where
  coherent := ⟨h.coherent.scrollSpeed, h.coherent.sensitivity, h.coherent.lpfAlpha,
    Assoc.nodup_put h.coherent.nodup⟩
  valid := by
    obtain ⟨hname, hscroll, hsens, hlpf, hmap⟩ := profileValidate_eq_ok.mp h.valid
    refine profileValidate_eq_ok.mpr ⟨hname, hscroll, hsens, hlpf, mapValidate_of_isSome ?_⟩
    exact Assoc.forall_mem_put (isSome_of_mapValidate hmap) ⟨hsrc, hdst⟩
  noNan := ⟨h.noNan.scrollSpeed, h.noNan.sensitivity, h.noNan.lpfAlpha⟩

theorem Profile.Sound.clearButtons (h : p.Sound) : (profileClearButtons p).Sound where
  coherent := ⟨h.coherent.scrollSpeed, h.coherent.sensitivity, h.coherent.lpfAlpha, List.nodup_nil⟩
  valid := by
    obtain ⟨hname, hscroll, hsens, hlpf, -⟩ := profileValidate_eq_ok.mp h.valid
    exact profileValidate_eq_ok.mpr ⟨hname, hscroll, hsens, hlpf, rfl⟩
  noNan := ⟨h.noNan.scrollSpeed, h.noNan.sensitivity, h.noNan.lpfAlpha⟩

theorem Profile.Sound.setScrollSpeed (h : p.Sound) (hx : x ≠ .nan)
    (hrange : scrollSpeedOutOfRange x = false) :
    ({ p with scrollSpeed := x, hasScroll := true } : Profile Double).Sound where
  coherent := ⟨fun h => (by cases h), h.coherent.sensitivity, h.coherent.lpfAlpha, h.coherent.nodup⟩
  valid := by
    obtain ⟨hname, -, hsens, hlpf, hmap⟩ := profileValidate_eq_ok.mp h.valid
    exact profileValidate_eq_ok.mpr ⟨hname, hrange, hsens, hlpf, hmap⟩
  noNan := ⟨hx, h.noNan.sensitivity, h.noNan.lpfAlpha⟩

theorem Profile.Sound.setSensitivity (h : p.Sound) (hx : x ≠ .nan)
    (hrange : sensitivityOutOfRange x = false) :
    ({ p with sensitivity := x, hasSens := true } : Profile Double).Sound where
  coherent := ⟨h.coherent.scrollSpeed, fun h => (by cases h), h.coherent.lpfAlpha, h.coherent.nodup⟩
  valid := by
    obtain ⟨hname, hscroll, -, hlpf, hmap⟩ := profileValidate_eq_ok.mp h.valid
    exact profileValidate_eq_ok.mpr ⟨hname, hscroll, hrange, hlpf, hmap⟩
  noNan := ⟨h.noNan.scrollSpeed, hx, h.noNan.lpfAlpha⟩

/-- A configuration with a profile that is made where it is missing. -/
theorem DeviceConfig.Sound.ensure (h : dc.Sound) (hname : name.val ≠ []) :
    (deviceConfigProfileEnsure dc name).Sound := by
  rw [deviceConfigProfileEnsure]
  split_ifs with hfind
  · exact h
  · exact h.concat (sound_profileInit hname) (Option.not_isSome_iff_eq_none.mp hfind)

theorem profile_ensure : (deviceConfigProfileEnsure dc name).profile = dc.profile := by
  rw [deviceConfigProfileEnsure]
  split_ifs <;> rfl

theorem mem_ensure : name ∈ (deviceConfigProfileEnsure dc name).profiles.map (·.name) := by
  rw [deviceConfigProfileEnsure]
  split_ifs with hfind
  · by_contra hnot
    rw [profileFind_eq_none.mpr hnot] at hfind
    cases hfind
  · simp [profileInit]

section

variable {f : Profile Double → Profile Double} {ps : List (Profile Double)}

/-- The profiles keep their names and their order. -/
theorem map_name_updateProfile (hf : ∀ p, (f p).name = p.name) :
    (updateProfile name f ps).map (·.name) = ps.map (·.name) := by
  induction ps with
  | nil => rfl
  | cons p ps ih =>
    rw [updateProfile]
    split_ifs
    · rw [List.map_cons, hf, List.map_cons]
    · rw [List.map_cons, ih, List.map_cons]

theorem sound_updateProfile (hf : ∀ p, p.Sound → (f p).Sound) (h : ∀ p ∈ ps, p.Sound) :
    ∀ p ∈ updateProfile name f ps, p.Sound := by
  induction ps with
  | nil => exact h
  | cons p ps ih =>
    rw [List.forall_mem_cons] at h
    rw [updateProfile]
    split_ifs
    · exact List.forall_mem_cons.mpr ⟨hf p h.1, h.2⟩
    · exact List.forall_mem_cons.mpr ⟨h.1, ih h.2⟩

theorem DeviceConfig.Sound.update (h : dc.Sound) (hname : ∀ p, (f p).name = p.name)
    (hf : ∀ p, p.Sound → (f p).Sound) :
    ({ dc with profiles := updateProfile name f dc.profiles } : DeviceConfig Double).Sound := by
  have hps := @sound_updateProfile name f dc.profiles hf h.profiles
  refine ⟨⟨h.coherent.calib, h.coherent.airmouse, ?_, fun p hp => (hps p hp).coherent⟩, hps⟩
  rw [map_name_updateProfile hname]
  exact h.coherent.nodup

end

/-- What a sound configuration needs to be valid: an active profile that is defined. -/
theorem DeviceConfig.Sound.validate_iff (h : dc.Sound) : deviceConfigValidate dc = .ok () ↔
    dc.profile.val ≠ [] ∧
      (dc.profile = .lit "default" ∨ dc.profile ∈ dc.profiles.map (·.name)) := by
  rw [deviceConfigValidate_eq_ok]
  exact and_congr_right fun _ => and_iff_right fun p hp => (h.profiles p hp).valid

/-- A profile that is found has a name. -/
theorem DeviceConfig.Sound.name_ne_nil (h : dc.Sound) (hfind : (profileFind dc name).isSome) :
    name.val ≠ [] := by
  obtain ⟨p, hp⟩ := Option.isSome_iff_exists.mp hfind
  have heq : p.name = name := by simpa using List.find?_some hp
  rw [← heq]
  exact (profileValidate_eq_ok.mp (h.profiles p (List.mem_of_find?_eq_some hp)).valid).1

end Profiles
